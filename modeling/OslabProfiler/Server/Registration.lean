import OslabProfiler.Lib.Command
import OslabProfiler.Server.HashFile

/-! # Registration at the start

The start-up routine reads the boot logs of the versions there are and registers every
other directory as a new version. The boot log of a new version is read in a callback
of a promise. The registration loop never waits, so all callbacks run after it, and
what they find in the variables of the loop is what the loop left there.
-/

namespace OslabProfiler.Server

open Lib CompKernel Lib.Command

/-- A value in `device_driver_info`: records, or a promise with its result; `none` is a
    promise that is rejected. -/
inductive Slot where
  | records (info : List DriverInfo)
  | promise (result : Option (List DriverInfo))
  deriving DecidableEq

/-- What the value is or resolves to. -/
def Slot.result : Slot → Option (List DriverInfo)
  | .records info => some info
  | .promise result => result

/-- The variables of the server that the routine uses. -/
structure StartUp where
  kernelDirList : List Text
  countVersion : Nat := 0
  unregisteredFile : List Nat := []
  unregisteredIndex : Nat := 0
  /-- The elements; `none` is the property that the index `undefined` names. -/
  deviceDriverInfo : Option Nat → Option Slot := fun _ => none
  /-- The positions of the new versions so far. A callback waits for each of them. -/
  registered : List Nat := []

/-- The system around the routine. -/
structure StartUpEnv where
  disk : Disk
  source : SourceDisk
  lib : Md5
  /-- A bound for the walks of `makeHashFile`. -/
  turns : Nat
  /-- Whether the directory can be made; otherwise the call throws. -/
  mkdirSync : Text → Bool

/-- Code of the routine. An exception leaves the variables as they are. -/
abbrev Routine := Command StartUp Unit

def versionName (countVersion : Nat) : Text := "V".toList ++ Nat.toDigits 10 countVersion

def StartUp.assign (s : StartUp) (key : Option Nat) (slot : Slot) : StartUp :=
  { s with deviceDriverInfo := Function.update s.deviceDriverInfo key (some slot) }

/-- One turn of the first loop, for a name and its position. -/
def surveyEntry (disk : Disk) (entry : Text × Nat) : Routine Unit :=
  if entry.1.head? = some 'V' then
    match disk.readFile (dmesgPath entry.1) with
    | none => stop ()
    | some data => update fun s =>
        { s.assign (some entry.2) (.records (parseDmesg data)) with
          countVersion := s.countVersion + 1 }
  else if entry.1 = "ORG".toList then pure ()
  else update fun s => { s with unregisteredFile := s.unregisteredFile ++ [entry.2] }

/-- One turn of the second loop, for `unregistered_file[unregistered_index]`. -/
def registerEntry (env : StartUpEnv) (q : Nat) : Routine Unit := do
  let name ← read fun s => (s.kernelDirList[q]?).getD []
  match env.source.lstatSync (kernelDirPath ++ "/".toList ++ name) with
  | none => stop ()
  | some false => update fun s => { s with unregisteredIndex := s.unregisteredIndex + 1 }
  | some true => do
      update fun s => { s with countVersion := s.countVersion + 1 }
      let version ← read fun s => versionName s.countVersion
      if env.mkdirSync (kernelDirPath ++ "/".toList ++ version) = true then
        match makeHashFile env.lib env.source kernelDirPath name env.turns with
        | .ended _ => update fun s =>
            { s with
              kernelDirList := s.kernelDirList.set q version
              registered := s.registered ++ [q]
              unregisteredIndex := s.unregisteredIndex + 1 }
        | .failed | .running => stop ()
      else stop ()

def startUpRoutine (env : StartUpEnv) : Routine Unit := do
  let list ← read StartUp.kernelDirList
  fold (fun _ entry => surveyEntry env.disk entry) () list.zipIdx
  let unregisteredFile ← read StartUp.unregisteredFile
  fold (fun _ q => registerEntry env q) () unregisteredFile

/-- The variables when the routine is done, before any callback. -/
def routineDone (env : StartUpEnv) (list : List Text) : StartUp :=
  (startUpRoutine env { kernelDirList := list }).2

/-- The callback of a registration. It has the same text for every version and reads the
    variables of the loop. -/
def callback (env : StartUpEnv) (s : StartUp) : StartUp :=
  s.assign s.unregisteredFile[s.unregisteredIndex]?
    (.promise ((env.disk.readFile (dmesgPath (versionName s.countVersion))).map parseDmesg))

/-- The variables after the callbacks. -/
def callbacksDone (env : StartUpEnv) (list : List Text) : StartUp :=
  (routineDone env list).registered.foldl (fun s _ => callback env s) (routineDone env list)

/-! ## The positions to be registered -/

/-- A name that the first loop notes. -/
def isUnregistered (name : Text) : Bool := name.head? ≠ some 'V' && name ≠ "ORG".toList

theorem isUnregistered_iff {name : Text} :
    isUnregistered name = true ↔ name.head? ≠ some 'V' ∧ name ≠ "ORG".toList := by
  simp only [isUnregistered, Bool.and_eq_true, decide_eq_true_eq]

/-- `unregistered_file` for names from the position `n` on. -/
def unregistered (names : List Text) (n : Nat) : List Nat :=
  ((names.zipIdx n).filter fun entry => isUnregistered entry.1).map (·.2)

def nameAt (list : List Text) (q : Nat) : Text := (list[q]?).getD []

theorem mem_unregistered {names : List Text} {n q : Nat} :
    q ∈ unregistered names n ↔ ∃ name, (name, q) ∈ names.zipIdx n ∧ isUnregistered name = true := by
  simp [unregistered]

theorem mem_unregistered_zero {list : List Text} {q : Nat} :
    q ∈ unregistered list 0 ↔ ∃ name, list[q]? = some name ∧ isUnregistered name = true := by
  rw [mem_unregistered]
  exact exists_congr fun name => and_congr_left fun _ => List.mk_mem_zipIdx_iff_getElem?

theorem unregistered_nodup (names : List Text) (n : Nat) : (unregistered names n).Nodup := by
  have positions : ((names.zipIdx n).map (·.2)).Nodup := by
    rw [List.zipIdx_map_snd]
    exact List.nodup_range'
  exact positions.sublist (List.filter_sublist.map _)

theorem unregistered_cons (name : Text) (names : List Text) (n : Nat) :
    unregistered (name :: names) n =
      (if isUnregistered name then [n] else []) ++ unregistered names (n + 1) := by
  cases noted : isUnregistered name <;> simp [unregistered, noted]

/-- The names at the noted positions, in the order of the listing. -/
theorem map_nameAt_unregistered (list : List Text) :
    (unregistered list 0).map (nameAt list) = list.filter isUnregistered := by
  have each : ∀ entry ∈ list.zipIdx.filter fun entry => isUnregistered entry.1,
      nameAt list entry.2 = entry.1 := by
    intro entry member
    have at_q := List.mk_mem_zipIdx_iff_getElem?.mp (List.mem_of_mem_filter member)
    rw [nameAt, at_q]
    rfl
  calc (unregistered list 0).map (nameAt list)
      = (list.zipIdx.filter fun entry => isUnregistered entry.1).map Prod.fst := by
        rw [unregistered, List.map_map]
        exact List.map_congr_left each
    _ = (list.zipIdx.map Prod.fst).filter isUnregistered := by
        rw [List.filter_map]
        rfl
    _ = list.filter isUnregistered := by rw [List.zipIdx_map_fst]

/-! ## The first loop -/

/-- The number of versions in a listing. -/
def versionCount (list : List Text) : Nat := list.countP fun name => name.head? = some 'V'

/-- The boot log of every version can be read. -/
def VersionsLogged (disk : Disk) (names : List Text) : Prop :=
  ∀ name ∈ names, name.head? = some 'V' → disk.readFile (dmesgPath name) ≠ none

/-- What the first loop has done, from the position `n` on. -/
structure Listed (names : List Text) (n : Nat) (s t : StartUp) : Prop where
  list : t.kernelDirList = s.kernelDirList
  count : t.countVersion = s.countVersion + versionCount names
  positions : t.unregisteredFile = s.unregisteredFile ++ unregistered names n
  index : t.unregisteredIndex = s.unregisteredIndex
  registered : t.registered = s.registered

theorem Listed.noted {list : List Text} {s : StartUp}
    (listed : Listed list 0 { kernelDirList := list } s) :
    s.unregisteredFile = unregistered list 0 :=
  listed.positions.trans (List.nil_append _)

theorem Listed.counted {list : List Text} {s : StartUp}
    (listed : Listed list 0 { kernelDirList := list } s) : s.countVersion = versionCount list :=
  listed.count.trans (Nat.zero_add _)

theorem versionCount_cons (name : Text) (names : List Text) :
    versionCount (name :: names) =
      versionCount names + if name.head? = some 'V' then 1 else 0 := by
  simp [versionCount, List.countP_cons]

theorem survey_listed (disk : Disk) (names : List Text) (n : Nat) (s : StartUp) :
    wp (fold (fun _ entry => surveyEntry disk entry) () (names.zipIdx n))
      (fun _ t => VersionsLogged disk names ∧ Listed names n s t)
      (fun _ t => ¬ VersionsLogged disk names ∧ t.registered = s.registered) s := by
  induction names generalizing n s with
  | nil =>
      have logged : VersionsLogged disk [] := by
        intro name member
        cases member
      exact ⟨logged, rfl, rfl, by simp [unregistered], rfl, rfl⟩
  | cons name names ih =>
      rw [List.zipIdx_cons, fold, wp_bind, surveyEntry]
      simp only [wp_ite]
      -- the rest of the names, from the state after this one
      have goOn : ∀ t : StartUp, t.kernelDirList = s.kernelDirList →
          t.countVersion = s.countVersion + (if name.head? = some 'V' then 1 else 0) →
          t.unregisteredFile = s.unregisteredFile ++ (if isUnregistered name then [n] else []) →
          t.unregisteredIndex = s.unregisteredIndex → t.registered = s.registered →
          (name.head? = some 'V' → disk.readFile (dmesgPath name) ≠ none) →
          wp (fold (fun _ entry => surveyEntry disk entry) () (names.zipIdx (n + 1)))
            (fun _ u => VersionsLogged disk (name :: names) ∧ Listed (name :: names) n s u)
            (fun _ u => ¬ VersionsLogged disk (name :: names) ∧ u.registered = s.registered) t := by
        intro t list count positions index registered readable
        refine wp_mono (ih (n + 1) t) (fun _ u done => ⟨?_, ?_, ?_, ?_, ?_, ?_⟩)
          fun _ u stopped => ⟨?_, ?_⟩
        · exact List.forall_mem_cons.mpr ⟨readable, done.1⟩
        · rw [done.2.list, list]
        · rw [done.2.count, count, versionCount_cons]
          omega
        · rw [done.2.positions, positions, unregistered_cons, List.append_assoc]
        · rw [done.2.index, index]
        · rw [done.2.registered, registered]
        · exact fun logged => stopped.1 (List.forall_mem_cons.mp logged).2
        · rw [stopped.2, registered]
      refine ⟨fun isVersion => ?_, fun noVersion => ⟨fun isOrg => ?_, fun noOrg => ?_⟩⟩
      · cases read : disk.readFile (dmesgPath name) with
        | none => exact ⟨fun logged => logged name List.mem_cons_self isVersion read, rfl⟩
        | some data =>
            refine goOn _ rfl (by rw [if_pos isVersion]) ?_ rfl rfl fun _ => by simp [read]
            simp [isUnregistered, isVersion, StartUp.assign]
      · refine goOn _ rfl (by rw [if_neg noVersion, Nat.add_zero]) ?_ rfl rfl fun isVersion =>
          (noVersion isVersion).elim
        simp [isUnregistered, isOrg]
      · refine goOn _ rfl (by rw [if_neg noVersion, Nat.add_zero]) ?_ rfl rfl fun isVersion =>
          (noVersion isVersion).elim
        rw [if_pos (isUnregistered_iff.mpr ⟨noVersion, noOrg⟩)]

/-- What is in a slot when the first loop has gone on from the position `n`. -/
def loadedFrom (disk : Disk) (names : List Text) (n : Nat) (s : StartUp) (q : Nat) : Option Slot :=
  if q < n then s.deviceDriverInfo (some q)
  else ((loadVersions disk names)[q - n]?.join).map .records

/-- One more name in front: it has a slot of its own. -/
theorem loadedFrom_cons {disk : Disk} {name : Text} {names : List Text} {n : Nat} {s t : StartUp}
    {first : Option (List DriverInfo)}
    (loaded : loadVersions disk (name :: names) = first :: loadVersions disk names)
    (here : t.deviceDriverInfo (some n) = first.map .records)
    (others : ∀ q, q < n → t.deviceDriverInfo (some q) = s.deviceDriverInfo (some q)) (q : Nat) :
    loadedFrom disk names (n + 1) t q = loadedFrom disk (name :: names) n s q := by
  unfold loadedFrom
  rw [loaded]
  rcases Nat.lt_trichotomy q n with before | rfl | after
  · rw [if_pos (by omega), if_pos before, others q before]
  · rw [if_pos (by omega), if_neg (by omega), here, Nat.sub_self]
    rfl
  · rw [if_neg (by omega), if_neg (by omega), show q - n = q - (n + 1) + 1 by omega]
    rfl

theorem loadedFrom_of_nil {disk : Disk} {names : List Text} {n : Nat} {s : StartUp}
    (nothing : loadVersions disk names = [])
    (unfilled : ∀ q, n ≤ q → s.deviceDriverInfo (some q) = none) (q : Nat) :
    s.deviceDriverInfo (some q) = loadedFrom disk names n s q := by
  rw [loadedFrom, nothing]
  split
  · rfl
  · exact unfilled q (by omega)

/-- No records are loaded for a name that is to be registered. -/
theorem loadVersions_of_unregistered (disk : Disk) {list : List Text} {q : Nat} {name : Text}
    (at_q : list[q]? = some name) (unregistered : isUnregistered name = true) :
    (loadVersions disk list)[q]?.join = none := by
  induction list generalizing q with
  | nil => cases at_q
  | cons first list ih =>
      rw [loadVersions]
      cases q with
      | zero =>
          rw [← Option.some_inj.mp at_q, isUnregistered_iff] at unregistered
          rw [if_neg unregistered.1]
          rfl
      | succ q =>
          split
          · split
            · rfl
            · exact ih at_q
          · exact ih at_q

/-- The first loop leaves the records of `loadVersions`, also when it throws. -/
theorem survey_wp (disk : Disk) (names : List Text) {n : Nat} {s : StartUp}
    (unfilled : ∀ q, n ≤ q → s.deviceDriverInfo (some q) = none) :
    wp (fold (fun _ entry => surveyEntry disk entry) () (names.zipIdx n))
      (fun _ t => ∀ q, t.deviceDriverInfo (some q) = loadedFrom disk names n s q)
      (fun _ t => ∀ q, t.deviceDriverInfo (some q) = loadedFrom disk names n s q) s := by
  induction names generalizing n s with
  | nil => exact loadedFrom_of_nil rfl unfilled
  | cons name names ih =>
      -- the other names, from a state in which this one has its slot
      have goOn : ∀ {t : StartUp} {first : Option (List DriverInfo)},
          loadVersions disk (name :: names) = first :: loadVersions disk names →
          t.deviceDriverInfo (some n) = first.map .records →
          (∀ q, q ≠ n → t.deviceDriverInfo (some q) = s.deviceDriverInfo (some q)) →
          wp (fold (fun _ entry => surveyEntry disk entry) () (names.zipIdx (n + 1)))
            (fun _ t => ∀ q, t.deviceDriverInfo (some q) = loadedFrom disk (name :: names) n s q)
            (fun _ t => ∀ q, t.deviceDriverInfo (some q) = loadedFrom disk (name :: names) n s q)
            t := by
        intro t first loaded here others
        have same := loadedFrom_cons loaded here fun q before => others q before.ne
        have beyond : ∀ q, n + 1 ≤ q → t.deviceDriverInfo (some q) = none := by
          intro q after
          rw [others q (by omega)]
          exact unfilled q (by omega)
        exact wp_mono (ih beyond) (fun _ _ done q => (done q).trans (same q))
          fun _ _ done q => (done q).trans (same q)
      rw [List.zipIdx_cons, fold, wp_bind, surveyEntry]
      simp only [wp_ite]
      refine ⟨fun isVersion => ?_, fun noVersion => ?_⟩
      · cases read : disk.readFile (dmesgPath name) with
        | none => exact loadedFrom_of_nil (by rw [loadVersions, if_pos isVersion, read]) unfilled
        | some data =>
            have loaded : loadVersions disk (name :: names) =
                some (parseDmesg data) :: loadVersions disk names := by
              rw [loadVersions, if_pos isVersion, read]
            refine goOn loaded ?_ fun q other => ?_
            · exact Function.update_self _ _ _
            · exact Function.update_of_ne (by simpa using other) _ _
      · have loaded : loadVersions disk (name :: names) = none :: loadVersions disk names := by
          rw [loadVersions, if_neg noVersion]
        exact ⟨fun _ => goOn loaded (unfilled n le_rfl) fun _ _ => rfl,
          fun _ => goOn loaded (unfilled n le_rfl) fun _ _ => rfl⟩

/-! ## A turn of the second loop -/

/-- A name that is not that of a file cannot become the version `n`: it leads nowhere, or its
    directory cannot be made, or its files cannot be hashed. -/
def Stops (env : StartUpEnv) (n : Nat) (name : Text) : Prop :=
  env.source.lstatSync (kernelDirPath ++ "/".toList ++ name) = some true →
    env.mkdirSync (kernelDirPath ++ "/".toList ++ versionName n) = true →
      ∀ written, makeHashFile env.lib env.source kernelDirPath name env.turns ≠ .ended written

/-- What a turn does that comes to its end. -/
inductive Turn (env : StartUpEnv) (q : Nat) (s : StartUp) : StartUp → Prop where
  | file (stat : env.source.lstatSync
        (kernelDirPath ++ "/".toList ++ nameAt s.kernelDirList q) = some false) :
      Turn env q s { s with unregisteredIndex := s.unregisteredIndex + 1 }
  | version {written : List Text}
      (stat : env.source.lstatSync
        (kernelDirPath ++ "/".toList ++ nameAt s.kernelDirList q) = some true)
      (made : env.mkdirSync
        (kernelDirPath ++ "/".toList ++ versionName (s.countVersion + 1)) = true)
      (hashed : makeHashFile env.lib env.source kernelDirPath (nameAt s.kernelDirList q)
        env.turns = .ended written) :
      Turn env q s { s with
        countVersion := s.countVersion + 1
        kernelDirList := s.kernelDirList.set q (versionName (s.countVersion + 1))
        registered := s.registered ++ [q]
        unregisteredIndex := s.unregisteredIndex + 1 }

/-- A turn that throws has at most counted. -/
structure Threw (env : StartUpEnv) (q : Nat) (s t : StartUp) : Prop where
  left : t = s ∨ t = { s with countVersion := s.countVersion + 1 }
  noFile : env.source.lstatSync
    (kernelDirPath ++ "/".toList ++ nameAt s.kernelDirList q) ≠ some false
  stops : Stops env (s.countVersion + 1) (nameAt s.kernelDirList q)

theorem registerEntry_turn (env : StartUpEnv) (q : Nat) (s : StartUp) :
    wp (registerEntry env q) (fun _ t => Turn env q s t) (fun _ t => Threw env q s t) s := by
  have name : (s.kernelDirList[q]?).getD [] = nameAt s.kernelDirList q := rfl
  rw [registerEntry]
  simp only [wp_bind, wp_read, name]
  cases stat : env.source.lstatSync (kernelDirPath ++ "/".toList ++ nameAt s.kernelDirList q) with
  | none =>
      refine ⟨.inl rfl, by rw [stat]; decide, fun isDir => ?_⟩
      rw [stat] at isDir
      cases isDir
  | some isDirectory =>
      cases isDirectory with
      | false => exact .file stat
      | true =>
          have noFile : env.source.lstatSync
              (kernelDirPath ++ "/".toList ++ nameAt s.kernelDirList q) ≠ some false := by
            rw [stat]
            decide
          simp only [wp_bind, wp_update, wp_read, wp_ite]
          refine ⟨fun made => ?_, fun failed => ⟨.inr rfl, noFile, fun _ made => absurd made failed⟩⟩
          cases hash : makeHashFile env.lib env.source kernelDirPath (nameAt s.kernelDirList q)
            env.turns with
          | ended written => exact .version stat made hash
          | failed | running =>
              refine ⟨.inr rfl, noFile, fun _ _ written ended => ?_⟩
              rw [hash] at ended
              cases ended

theorem Turn.deviceDriverInfo {env : StartUpEnv} {q : Nat} {s t : StartUp} (turn : Turn env q s t) :
    t.deviceDriverInfo = s.deviceDriverInfo := by
  cases turn <;> rfl

theorem Threw.deviceDriverInfo {env : StartUpEnv} {q : Nat} {s t : StartUp}
    (threw : Threw env q s t) : t.deviceDriverInfo = s.deviceDriverInfo := by
  rcases threw.left with rfl | rfl <;> rfl

theorem Threw.registered {env : StartUpEnv} {q : Nat} {s t : StartUp}
    (threw : Threw env q s t) : t.registered = s.registered := by
  rcases threw.left with rfl | rfl <;> rfl

/-- Before the callbacks the slots are those of the versions that were there. -/
theorem deviceDriverInfo_routineDone (env : StartUpEnv) (list : List Text) (q : Nat) :
    (routineDone env list).deviceDriverInfo (some q) =
      ((loadVersions env.disk list)[q]?.join).map .records := by
  refine wp_final (P := fun t : StartUp => t.deviceDriverInfo (some q) =
    ((loadVersions env.disk list)[q]?.join).map .records) ?_
  unfold startUpRoutine
  simp only [wp_bind, wp_read]
  refine wp_mono (survey_wp env.disk list fun _ _ => rfl) (fun _ s loaded => ?_)
    fun _ _ loaded => loaded q
  refine wp_fold (fun _ _ t => StartUp.deviceDriverInfo t (some q) = _)
    (fun _ p _ t same => ?_) (loaded q)
  exact wp_mono (registerEntry_turn env p t)
    (fun _ _ turn => (congrFun turn.deviceDriverInfo _).trans same)
    fun _ _ threw => (congrFun threw.deviceDriverInfo _).trans same

/-! ## Slots -/

/-- The slot of a position holds the records of the version that is registered there. -/
def Filled (disk : Disk) (s : StartUp) (q : Nat) : Prop :=
  ∃ version data slot, s.kernelDirList[q]? = some version ∧
    disk.readFile (dmesgPath version) = some data ∧ s.deviceDriverInfo (some q) = some slot ∧
    slot.result = some (parseDmesg data)

/-- The callbacks fill the slots of the new versions, and change no other one. -/
structure RightSlots (env : StartUpEnv) (list : List Text) : Prop where
  filled : ∀ q ∈ (routineDone env list).registered, Filled env.disk (callbacksDone env list) q
  others : ∀ key, (∀ q ∈ (routineDone env list).registered, key ≠ some q) →
    (callbacksDone env list).deviceDriverInfo key = (routineDone env list).deviceDriverInfo key

/-- A directory that the routine should register. -/
def IsNew (env : StartUpEnv) (list : List Text) (q : Nat) : Prop :=
  ∃ name, list[q]? = some name ∧ name.head? ≠ some 'V' ∧ name ≠ "ORG".toList ∧
    env.source.lstatSync (kernelDirPath ++ "/".toList ++ name) = some true

/-- No call of the routine throws; the numbers behind those of the versions are free. -/
structure Undisturbed (env : StartUpEnv) (list : List Text) : Prop where
  logged : ∀ name ∈ list, name.head? = some 'V' → env.disk.readFile (dmesgPath name) ≠ none
  found : ∀ name ∈ list, env.source.lstatSync (kernelDirPath ++ "/".toList ++ name) ≠ none
  made : ∀ n, versionCount list < n →
    env.mkdirSync (kernelDirPath ++ "/".toList ++ versionName n) = true
  hashed : ∀ name ∈ list,
    env.source.lstatSync (kernelDirPath ++ "/".toList ++ name) = some true →
      ∃ written, makeHashFile env.lib env.source kernelDirPath name env.turns = .ended written

section Loops

variable {env : StartUpEnv} {list : List Text}

/-- In the second loop with the positions `rest` to come: the index is past every new
    version, and no directory was left out. -/
structure Registering (env : StartUpEnv) (list : List Text) (rest : List Nat) (s : StartUp) :
    Prop where
  counted : versionCount list ≤ s.countVersion
  nodup : s.unregisteredFile.Nodup
  unfilled : ∀ q ∈ s.unregisteredFile, s.deviceDriverInfo (some q) = none
  past : ∃ before, s.unregisteredFile = before ++ rest ∧ s.unregisteredIndex = before.length ∧
    ∀ q ∈ s.registered, q ∈ before
  names : ∀ q ∈ rest, ∃ name, list[q]? = some name ∧ s.kernelDirList[q]? = some name
  complete : ∀ q, IsNew env list q → q ∈ s.registered ∨ q ∈ rest

/-- No callback will write the slot of a new version. -/
def Missed (s : StartUp) : Prop :=
  ∀ q ∈ s.registered, s.unregisteredFile[s.unregisteredIndex]? ≠ some q ∧
    s.deviceDriverInfo (some q) = none

/-- The second loop starts with all noted positions to come. -/
theorem Listed.registering {s : StartUp} (listed : Listed list 0 { kernelDirList := list } s)
    (loaded : ∀ q, s.deviceDriverInfo (some q) =
      loadedFrom env.disk list 0 { kernelDirList := list } q) :
    Registering env list s.unregisteredFile s := by
  have noted := listed.noted
  refine ⟨?_, ?_, fun q member => ?_, ⟨[], rfl, listed.index, ?_⟩, fun q member => ?_, ?_⟩
  · rw [listed.counted]
  · rw [noted]
    exact unregistered_nodup list 0
  · rw [noted] at member
    obtain ⟨name, at_q, unregistered⟩ := mem_unregistered_zero.mp member
    rw [loaded, loadedFrom, if_neg (Nat.not_lt_zero q), Nat.sub_zero,
      loadVersions_of_unregistered env.disk at_q unregistered]
    rfl
  · rw [listed.registered]
    exact List.forall_mem_nil _
  · rw [noted] at member
    obtain ⟨name, at_q, -⟩ := mem_unregistered_zero.mp member
    exact ⟨name, at_q, by rw [listed.list, at_q]⟩
  · rintro q ⟨name, at_q, noVersion, noOrg, -⟩
    have unregistered := isUnregistered_iff.mpr ⟨noVersion, noOrg⟩
    exact .inr (noted ▸ mem_unregistered_zero.mpr ⟨name, at_q, unregistered⟩)

theorem Registering.missed {rest : List Nat} {s : StartUp}
    (registering : Registering env list rest s) : Missed s := by
  intro q member
  obtain ⟨before, all, index, past⟩ := registering.past
  have early := past q member
  refine ⟨fun found => ?_, registering.unfilled q (by rw [all]; exact List.mem_append_left _ early)⟩
  have late : q ∈ rest := by
    rw [all, index, List.getElem?_append_right le_rfl] at found
    exact List.mem_of_getElem? found
  have nodup := registering.nodup
  rw [all] at nodup
  exact (List.nodup_append.mp nodup).2.2 q early q late rfl

/-- What one turn may change for the next one to go on: the index, by one, and the name and
    the registration of the position that it leaves. -/
theorem Registering.next {q : Nat} {rest : List Nat} {s t : StartUp}
    (registering : Registering env list (q :: rest) s) (count : s.countVersion ≤ t.countVersion)
    (file : t.unregisteredFile = s.unregisteredFile)
    (info : t.deviceDriverInfo = s.deviceDriverInfo)
    (index : t.unregisteredIndex = s.unregisteredIndex + 1)
    (names : ∀ p, p ≠ q → t.kernelDirList[p]? = s.kernelDirList[p]?)
    (only : ∀ p ∈ t.registered, p ∈ s.registered ∨ p = q)
    (kept : ∀ p, p ∈ s.registered ∨ p = q ∧ IsNew env list q → p ∈ t.registered) :
    Registering env list rest t := by
  obtain ⟨before, all, length, past⟩ := registering.past
  have nodup := registering.nodup
  rw [all, List.nodup_append, List.nodup_cons] at nodup
  refine ⟨registering.counted.trans count, file ▸ registering.nodup,
    by rw [file, info]; exact registering.unfilled,
    ⟨before ++ [q], by rw [file, all, List.append_assoc]; rfl,
      by rw [index, length, List.length_append]; rfl, fun p member => ?_⟩,
    fun p member => ?_, fun p isNew => ?_⟩
  · rcases only p member with earlier | rfl
    · exact List.mem_append_left _ (past p earlier)
    · exact List.mem_append_right _ (List.mem_singleton_self p)
  · have other : p ≠ q := by
      rintro rfl
      exact nodup.2.1.1 member
    rw [names p other]
    exact registering.names p (List.mem_cons_of_mem q member)
  · rcases registering.complete p isNew with earlier | waiting
    · exact .inl (kept p (.inl earlier))
    · rcases List.mem_cons.mp waiting with rfl | later
      · exact .inl (kept p (.inr ⟨rfl, isNew⟩))
      · exact .inr later

theorem Threw.not_undisturbed {q : Nat} {name : Text} {s t : StartUp} (threw : Threw env q s t)
    (member : name ∈ list) (here : nameAt s.kernelDirList q = name)
    (counted : versionCount list ≤ s.countVersion) : ¬ Undisturbed env list := by
  intro undisturbed
  obtain ⟨-, noFile, stops⟩ := threw
  rw [here] at noFile stops
  obtain ⟨isDirectory, stat⟩ := Option.ne_none_iff_exists'.mp (undisturbed.found name member)
  cases isDirectory with
  | false => exact noFile stat
  | true =>
      obtain ⟨written, hashed⟩ := undisturbed.hashed name member stat
      exact stops stat (undisturbed.made _ (Nat.lt_succ_of_le counted)) written hashed

theorem Threw.missed {q : Nat} {s t : StartUp} (threw : Threw env q s t) (missed : Missed s) :
    Missed t := by
  rcases threw.left with rfl | rfl <;> exact missed

theorem registerEntry_wp {q : Nat} {rest : List Nat} {s : StartUp}
    (registering : Registering env list (q :: rest) s) :
    wp (registerEntry env q) (fun _ t => Registering env list rest t)
      (fun _ t => Missed t ∧ ¬ Undisturbed env list) s := by
  obtain ⟨name, at_q, current⟩ := registering.names q List.mem_cons_self
  have here : nameAt s.kernelDirList q = name := by
    rw [nameAt, current]
    rfl
  refine wp_mono (registerEntry_turn env q s) (fun _ t turn => ?_) fun _ t threw =>
    ⟨threw.missed registering.missed,
      threw.not_undisturbed (List.mem_of_getElem? at_q) here registering.counted⟩
  cases turn with
  | file stat =>
      refine registering.next le_rfl rfl rfl rfl (fun _ _ => rfl) (fun p before => .inl before) ?_
      rintro p (before | ⟨rfl, other, at_p, -, -, isDir⟩)
      · exact before
      · rw [← Option.some_inj.mp (at_q.symm.trans at_p), ← here, stat] at isDir
        cases isDir
  | version stat made hashed =>
      refine registering.next (Nat.le_succ _) rfl rfl rfl (fun p other => ?_) (by simp)
        fun p place => ?_
      · exact List.getElem?_set_ne (Ne.symm other)
      · rw [List.mem_append, List.mem_singleton]
        exact place.imp_right And.left

theorem startUpRoutine_wp (env : StartUpEnv) (list : List Text) :
    wp (startUpRoutine env)
      (fun _ t => Missed t ∧ ∀ q, IsNew env list q → q ∈ t.registered)
      (fun _ t => Missed t ∧ ¬ Undisturbed env list) { kernelDirList := list } := by
  unfold startUpRoutine
  simp only [wp_bind, wp_read]
  have survey := wp_and (survey_listed env.disk list 0 { kernelDirList := list })
    (survey_wp env.disk list fun _ _ => rfl)
  refine wp_mono survey (fun _ s surveyed => ?_) fun _ s stopped => ⟨fun q member => ?_, ?_⟩
  rotate_left
  · rw [stopped.1.2] at member
    cases member
  · exact fun undisturbed => stopped.1.1 undisturbed.logged
  refine wp_mono (wp_fold (fun _ rest t => Registering env list rest t)
    (fun _ q rest t registering => registerEntry_wp registering)
    (surveyed.1.2.registering surveyed.2))
    (fun _ t registering => ?_) fun _ _ stopped => stopped
  exact ⟨registering.missed, fun q isNew => (registering.complete q isNew).resolve_right (by simp)⟩

end Loops

theorem routineDone_missed (env : StartUpEnv) (list : List Text) :
    Missed (routineDone env list) :=
  wp_final (wp_mono (startUpRoutine_wp env list) (fun _ _ done => done.1) fun _ _ stopped =>
    stopped.1)

/-- If nothing throws, every directory is registered. -/
theorem Undisturbed.registered {env : StartUpEnv} {list : List Text}
    (undisturbed : Undisturbed env list) {q : Nat} (isNew : IsNew env list q) :
    q ∈ (routineDone env list).registered := by
  obtain ⟨_, t, ends, -, all⟩ := ends_of_unstopped (startUpRoutine_wp env list)
    fun _ _ stopped => stopped.2 undisturbed
  rw [routineDone, show startUpRoutine env { kernelDirList := list } = (.ok (), t) from ends]
  exact all q isNew

/-- The first of the names that is not that of a file stops the routine, if there is one. -/
def FirstStops (env : StartUpEnv) (n : Nat) (names : List Text) : Prop :=
  ∀ name, names.find? (fun name =>
      env.source.lstatSync (kernelDirPath ++ "/".toList ++ name) ≠ some false) = some name →
    Stops env n name

section Registered

variable {env : StartUpEnv} {list : List Text}

theorem firstStops_of_file {n : Nat} {name : Text}
    (file : env.source.lstatSync (kernelDirPath ++ "/".toList ++ name) = some false)
    (names : List Text) : FirstStops env n (name :: names) ↔ FirstStops env n names := by
  rw [FirstStops, List.find?_cons_of_neg (by rw [file]; decide)]
  rfl

theorem firstStops_of_not_file {n : Nat} {name : Text}
    (other : env.source.lstatSync (kernelDirPath ++ "/".toList ++ name) ≠ some false)
    (names : List Text) : FirstStops env n (name :: names) ↔ Stops env n name := by
  rw [FirstStops, List.find?_cons_of_pos (by rw [decide_eq_true other])]
  simp only [Option.some_inj, forall_eq']

theorem registered_ne_nil (env : StartUpEnv) (positions : List Nat) {s : StartUp}
    (registered : s.registered ≠ []) :
    wp (fold (fun _ q => registerEntry env q) () positions) (fun _ t => t.registered ≠ [])
      (fun _ t => t.registered ≠ []) s := by
  refine wp_fold (fun _ _ t => StartUp.registered t ≠ []) (fun _ q _ t before => ?_) registered
  refine wp_mono (registerEntry_turn env q t) (fun _ u turn => ?_) fun _ u threw => ?_
  · cases turn with
    | file => exact before
    | version => exact List.concat_ne_nil q _
  · rw [threw.registered]
    exact before

/-- The second loop registers nothing exactly if the first name that is not that of a file
    stops it. -/
theorem register_nothing (env : StartUpEnv) (list : List Text) {positions : List Nat} {s : StartUp}
    (nothing : s.registered = []) (same : s.kernelDirList = list) :
    wp (fold (fun _ q => registerEntry env q) () positions)
      (fun _ t => t.registered = [] ↔
        FirstStops env (s.countVersion + 1) (positions.map (nameAt list)))
      (fun _ t => t.registered = [] ↔
        FirstStops env (s.countVersion + 1) (positions.map (nameAt list))) s := by
  induction positions generalizing s with
  | nil => exact iff_of_true nothing fun name found => by cases found
  | cons q positions ih =>
      have name : nameAt s.kernelDirList q = nameAt list q := by rw [same]
      rw [fold, wp_bind, List.map_cons]
      refine wp_mono (registerEntry_turn env q s) (fun _ t turn => ?_) fun _ t threw => ?_
      · cases turn with
        | file stat =>
            rw [name] at stat
            rw [firstStops_of_file stat]
            exact ih nothing same
        | version stat made hashed =>
            -- what is registered now stays so, whatever the other turns do
            rw [name] at stat hashed
            rw [firstStops_of_not_file (by rw [stat]; decide)]
            have goes : ¬ Stops env (s.countVersion + 1) (nameAt list q) :=
              fun stops => stops stat made _ hashed
            exact wp_mono (registered_ne_nil env positions (List.concat_ne_nil q _))
              (fun _ _ kept => iff_of_false kept goes) fun _ _ kept => iff_of_false kept goes
      · have still := threw.registered.trans nothing
        obtain ⟨-, noFile, stops⟩ := threw
        rw [name] at noFile stops
        rw [firstStops_of_not_file noFile]
        exact iff_of_true still stops

end Registered

/-- The routine registers nothing exactly if a boot log is missing or it stops at the first
    directory. -/
theorem registered_eq_nil_iff (env : StartUpEnv) (list : List Text) :
    (routineDone env list).registered = [] ↔ ¬ VersionsLogged env.disk list ∨
      FirstStops env (versionCount list + 1) (list.filter isUnregistered) := by
  refine wp_final (P := fun t : StartUp => t.registered = [] ↔ ¬ VersionsLogged env.disk list ∨
    FirstStops env (versionCount list + 1) (list.filter isUnregistered)) ?_
  unfold startUpRoutine
  simp only [wp_bind, wp_read]
  refine wp_mono (survey_listed env.disk list 0 { kernelDirList := list })
    (fun _ s surveyed => ?_) fun _ t stopped => iff_of_true stopped.2 (.inl stopped.1)
  obtain ⟨logged, listed⟩ := surveyed
  rw [or_iff_right (not_not.mpr logged), listed.noted, ← map_nameAt_unregistered, ← listed.counted]
  exact register_nothing env list listed.registered listed.list

/-- However often the callback runs, a slot that it does not write stays. -/
theorem deviceDriverInfo_callbacks (env : StartUpEnv) (waiting : List Nat) {s : StartUp}
    {key : Option Nat} (other : s.unregisteredFile[s.unregisteredIndex]? ≠ key) :
    (waiting.foldl (fun s _ => callback env s) s).deviceDriverInfo key =
      s.deviceDriverInfo key := by
  induction waiting generalizing s with
  | nil => rfl
  | cons q waiting ih =>
      rw [List.foldl_cons, ih (s := callback env s) other, callback, StartUp.assign]
      exact Function.update_of_ne (Ne.symm other) _ _

/-- The slots come out right only if no directory gets registered: a boot log is missing, or
    the first directory cannot be registered. So they never do if there is a new directory and
    nothing throws. -/
theorem rightSlots_iff (env : StartUpEnv) (list : List Text) :
    (RightSlots env list ↔ ¬ VersionsLogged env.disk list ∨
        FirstStops env (versionCount list + 1) (list.filter isUnregistered)) ∧
      (Undisturbed env list → ∀ q, IsNew env list q → ¬ RightSlots env list) := by
  have never : ∀ q ∈ (routineDone env list).registered, ¬ RightSlots env list := by
    intro q member right
    obtain ⟨other, empty⟩ := routineDone_missed env list q member
    obtain ⟨_, _, slot, -, -, found, -⟩ := right.filled q member
    rw [callbacksDone, deviceDriverInfo_callbacks env _ other, empty] at found
    cases found
  rw [← registered_eq_nil_iff]
  refine ⟨⟨fun right => ?_, fun none => ⟨fun q member => ?_, fun key _ => ?_⟩⟩, ?_⟩
  · exact List.eq_nil_iff_forall_not_mem.mpr fun q member => never q member right
  · rw [none] at member
    cases member
  · rw [callbacksDone, none]
    rfl
  · intro undisturbed q isNew
    exact never q (undisturbed.registered isNew)

/-- One new directory, with a boot log of one line. -/
def newDirectory : StartUpEnv where
  disk := ⟨fun _ => some "[    0.100000] initcall a+0x0/0x1 returned 0 after 5 usecs".toList,
    fun _ => none⟩
  source := ⟨fun _ => some [], fun _ => some true, fun _ => none⟩
  lib := firstByte
  turns := 2
  mkdirSync _ := true

theorem undisturbed_newDirectory : Undisturbed newDirectory ["linux".toList] where
  logged _ _ _ := Option.some_ne_none _
  found _ _ := Option.some_ne_none _
  made _ _ := rfl
  hashed _ _ _ := ⟨[], rfl⟩

/-- It is registered as `V1`; its slot stays empty, and the promise for its records is
    stored under `undefined`. -/
theorem newDirectory_misplaced :
    (routineDone newDirectory ["linux".toList]).kernelDirList = ["V1".toList] ∧
      (routineDone newDirectory ["linux".toList]).registered = [0] ∧
      (callbacksDone newDirectory ["linux".toList]).deviceDriverInfo (some 0) = none ∧
      (callbacksDone newDirectory ["linux".toList]).deviceDriverInfo none =
        some (.promise (some
          [{ initTime := some (.rat (5 / 1000000)), returnValue := some (.rat 0) }])) ∧
      Undisturbed newDirectory ["linux".toList] ∧ ¬ RightSlots newDirectory ["linux".toList] := by
  have registered : (routineDone newDirectory ["linux".toList]).registered = [0] := by
    decide +kernel
  have empty : (callbacksDone newDirectory ["linux".toList]).deviceDriverInfo (some 0) = none := by
    decide +kernel
  refine ⟨by decide +kernel, registered, empty, by decide +kernel, undisturbed_newDirectory,
    fun right => ?_⟩
  obtain ⟨_, _, slot, -, -, found, -⟩ := right.filled 0 (by rw [registered]; exact .head _)
  rw [empty] at found
  cases found

end OslabProfiler.Server

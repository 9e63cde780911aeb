import OslabProfiler.Server.BootPage
import OslabProfiler.Server.ParseDmesg

/-! # Versions and their directories

The server keeps one directory per kernel version. Its endpoints name a version in
three ways: by the position of its directory in the listing (the driver records),
by the character behind the `V` of the name (the records again and the power
figure) and by the number of the button (the source tree and the boot graph).
-/

namespace OslabProfiler.Server

open Lib

/-! ## The endpoints -/

def kernelDirPath : Text := "/home/keti/oslab_profiler/kernel_management".toList

/-- What `lstat` and `readdir` show of a path, with the names in the order of `readdir`. -/
inductive Tree where
  | file
  | dir (entries : List (Text × Tree))

/-- The disk as the endpoints see it; `none` is a call that throws. -/
structure Disk where
  readFile : Text → Option Text
  lstat : Text → Option Tree

def dmesgPath (version : Text) : Text :=
  kernelDirPath ++ "/".toList ++ version ++ "/dmesg.txt".toList

/-- The first loop of the start-up: `device_driver_info`, one element per entry of the
    listing. An exception ends the loop; an entry without `V` is left to registration. -/
def loadVersions (disk : Disk) : List Text → List (Option (List DriverInfo))
  | [] => []
  | version :: list =>
      if version.head? = some 'V' then
        match disk.readFile (dmesgPath version) with
        | none => []
        | some data => some (parseDmesg data) :: loadVersions disk list
      else none :: loadVersions disk list

/-- `Number(kernel_version[1])`. -/
def versionDigit (kernelVersion : Text) : Num := (kernelVersion[1]?).elim .nan fun c => number [c]

/-- A number as an array index; anything else names no element. -/
def arrayIndex : Num → Option Nat
  | .nan | .inf _ => none
  | .rat q => if q.den = 1 ∧ 0 ≤ q.num then some q.num.toNat else none

def getDeviceDriverInfo (deviceDriverInfo : List (Option (List DriverInfo)))
    (kernelVersion : Text) : Option (List DriverInfo) :=
  (arrayIndex (versionDigit kernelVersion - .rat 1)).bind fun i => (deviceDriverInfo[i]?).join

/-- A number in a text; one character is read as a whole number or as `NaN`. -/
def printNum : Num → Text
  | .nan => "NaN".toList
  | .inf negative => if negative then "-Infinity".toList else "Infinity".toList
  | .rat q => printInt q.num

/-- The file that `/calc_dmesg_based_watt` reads. -/
def wattPath (kernelVersion : Text) : Text :=
  kernelDirPath ++ "/V".toList ++ printNum (versionDigit kernelVersion) ++ "/dmesg.txt".toList

/-- `/calc_dmesg_based_watt` before rounding: the time stamp in the last line but one
    times the power of the board; `none` where the handler throws. -/
def calcDmesgBasedWatt (disk : Disk) (kernelVersion : Text) : Option Num := do
  let data ← disk.readFile (wattPath kernelVersion)
  let datas := data.splitOn '\n'
  let line ← if 2 ≤ datas.length then datas[datas.length - 2]? else none
  let str1 ← (line.splitOn '[')[1]?
  let str2 ← (str1.splitOn ']')[0]?
  match number str2 with
  | .nan => some .nan
  | .inf negative => some (.inf negative)
  | .rat q => some (.rat (q * (754 / 100)))

/-- The file that `/bootgraph/kernel_1` reads. -/
def bootgraphPath (selected1 : Text) : Text :=
  kernelDirPath ++ "/V".toList ++ selected1 ++ "/bootgraph.svg".toList

/-! ### The source tree -/

/-- `str.search(pat)`: the first position of the pattern, or -1. -/
def search (pat : String) (str : Text) : Int :=
  match (List.range (str.length + 1)).find? fun i => decide (pat.toList <+: str.drop i) with
  | none => -1
  | some i => i

def noVersionText : Text :=
  "No kernel version has been selected yet!!<br>Please select a kernel version to compare".toList

def basename (filename : Text) : Text := (tokens (· = '/') filename).getLast?.getD []

/-- The variable `list` of the server, and the paths looked at so far. -/
structure Listing where
  list : Text
  reads : List Text

def Listing.write (s : Listing) (html : Text) : Listing := { s with list := s.list ++ html }

mutual

/-- `getDirectoryArchitectureToJSONformat` on a path where `tree` is found. -/
def listTree (filename : Text) : Tree → Listing → Text × Listing
  | .file, s =>
      if search "Vundefined" filename ≠ 0 then (noVersionText, s)
      else
        let s : Listing := { s with reads := s.reads ++ [filename] }
        let s := s.write ("<li id=\"".toList ++ filename ++
          "\" onclick=\"selectFile(this.id)\">".toList ++ basename filename)
        let s := s.write "</li>".toList
        (s.list, s)
  | .dir entries, s =>
      if search "Vundefined" filename ≠ 0 then (noVersionText, s)
      else
        let s : Listing := { s with reads := s.reads ++ [filename] }
        let s := s.write ("<details close> <summary class=\"folder\">".toList ++
          basename filename ++ "</summary>".toList)
        let s := s.write "<ul>".toList
        let s := listEntries filename entries s
        let s := s.write "</ul></details>".toList
        let s := s.write "</li>".toList
        (s.list, s)

def listEntries (filename : Text) : List (Text × Tree) → Listing → Listing
  | [], s => s
  | (child, tree) :: entries, s =>
      listEntries filename entries (listTree (filename ++ "/".toList ++ child) tree s).2

end

/-- The whole function; the test comes before the path is looked at. -/
def getDirectoryArchitectureToJSONformat (disk : Disk) (filename : Text) (s : Listing) :
    Option (Text × Listing) :=
  if search "Vundefined" filename ≠ 0 then some (noVersionText, s)
  else (disk.lstat filename).map fun tree => listTree filename tree s

/-- A query parameter in a text. -/
def queryText (param : Option Text) : Text := param.getD "undefined".toList

def linuxPath (selected1 : Text) : Text :=
  kernelDirPath ++ "/V".toList ++ selected1 ++ "/linux".toList

inductive DirectoryReply where
  /-- One version: the text sent and the paths looked at. -/
  | listing (htmlcode : Text) (reads : List Text)
  /-- Two versions: the command whose output is shown. -/
  | compare (command : Text)
  | throws

def moltPath (selected : Text) : Text :=
  kernelDirPath ++ "/V".toList ++ selected ++ "/kernel-source__molt".toList

def getDirectoryJSON (disk : Disk) (selected1 selected2 : Option Text) : DirectoryReply :=
  if isNaNText selected2 then
    match getDirectoryArchitectureToJSONformat disk (linuxPath (queryText selected1))
      ⟨"<ul>".toList, []⟩ with
    | none => .throws
    | some (jsonList, s) => .listing (jsonList ++ "</ul>".toList) s.reads
  else
    .compare ("./comp_kernel/ssu_diff ".toList ++ kernelDirPath ++ "/ORG/kernel-source".toList ++
      " ".toList ++ moltPath (queryText selected1) ++ " ".toList ++
      moltPath (queryText selected2))

/-! ## What the endpoints serve -/

/-- A listing as `readdir` gives it: the names differ, and all are versions. -/
structure Registered (list : List Text) : Prop where
  nodup : list.Nodup
  version : ∀ name ∈ list, name.head? = some 'V'

/-- Every version has a boot log. -/
def Logged (disk : Disk) (list : List Text) : Prop :=
  ∀ name ∈ list, (disk.readFile (dmesgPath name)).isSome = true

theorem loadVersions_eq_map {disk : Disk} {list : List Text}
    (version : ∀ name ∈ list, name.head? = some 'V') (logged : Logged disk list) :
    loadVersions disk list =
      list.map fun name => (disk.readFile (dmesgPath name)).map parseDmesg := by
  induction list with
  | nil => rfl
  | cons name list ih =>
      rw [List.forall_mem_cons] at version
      obtain ⟨data, read⟩ := Option.isSome_iff_exists.mp (logged name List.mem_cons_self)
      have rest := ih version.2 fun n member => logged n (List.mem_cons_of_mem _ member)
      rw [loadVersions, if_pos version.1, List.map_cons, ← rest, read]
      rfl

/-- A path of the form the endpoints build lies in the directory of that name. -/
theorem selectedPath_eq_iff {selected dir rest : Text} :
    kernelDirPath ++ "/V".toList ++ selected ++ rest = kernelDirPath ++ "/".toList ++ dir ++ rest ↔
      dir = "V".toList ++ selected := by
  rw [List.append_cancel_right_eq, List.append_assoc, List.append_assoc,
    List.append_cancel_left_eq]
  constructor
  · intro same
    exact (List.cons.inj same).2.symm
  · rintro rfl
    rfl

theorem search_eq_zero {pat : String} {str : Text} (found : search pat str = 0) :
    pat.toList <+: str := by
  unfold search at found
  split at found
  case h_1 => cases found
  case h_2 i first =>
      have start : i = 0 := by exact_mod_cast found
      simpa [start] using List.find?_some first

/-- No path below the directory of the versions begins with `Vundefined`, so the test
    at the head of the function always succeeds: nothing is listed. -/
theorem getDirectoryArchitecture_linuxPath (disk : Disk) (selected : Text) (s : Listing) :
    getDirectoryArchitectureToJSONformat disk (linuxPath selected) s = some (noVersionText, s) := by
  have elsewhere : search "Vundefined" (linuxPath selected) ≠ 0 := by
    intro found
    obtain ⟨rest, path⟩ := search_eq_zero found
    have head : (linuxPath selected).head? = some '/' := rfl
    rw [← path] at head
    have clash : some 'V' = some '/' := head
    exact absurd clash (by decide)
  rw [getDirectoryArchitectureToJSONformat, if_pos elsewhere]

theorem versionDigit_small {n : Nat} (small : n < 10) :
    versionDigit ("V".toList ++ Nat.toDigits 10 n) = .rat n := by
  have word : isWord64 n = true := by
    simp only [isWord64, Bool.and_eq_true, decide_eq_true_eq]
    omega
  have digit := number_toDigits word
  rw [Nat.toDigits_of_lt_base small] at digit ⊢
  exact digit

/-- On a click on the button `i` the records, the power figure and the boot graph come
    from the directory `dir`. -/
structure Located (disk : Disk) (list : List Text) (i : Nat) (dir : Text) : Prop where
  deviceDriverInfo : ∃ version, .getDeviceDriverInfo version ∈ (Page.initial.click i).2 ∧
    getDeviceDriverInfo (loadVersions disk list) version =
      (disk.readFile (dmesgPath dir)).map parseDmesg
  watt : ∃ version, .calcDmesgBasedWatt version ∈ (Page.initial.click i).2 ∧
    wattPath version = dmesgPath dir
  bootgraph : ∃ selected1 selected2,
    .bootgraphKernel1 selected1 selected2 ∈ (Page.initial.click i).2 ∧
      bootgraphPath selected1 = kernelDirPath ++ "/".toList ++ dir ++ "/bootgraph.svg".toList

/-- So does the source tree: paths are looked at for it, all of them in `dir`. -/
structure SameDirectory (disk : Disk) (list : List Text) (i : Nat) (dir : Text) : Prop
    extends Located disk list i dir where
  directoryJSON : ∃ selected1 selected2,
    .getDirectoryJSON selected1 selected2 ∈ (Page.initial.click i).2 ∧
      ∃ html reads, getDirectoryJSON disk (some selected1) (some selected2) = .listing html reads ∧
        reads ≠ [] ∧ ∀ path ∈ reads, kernelDirPath ++ "/".toList ++ dir ++ "/".toList <+: path

/-- The weaker demand that only the path handed over for listing is in `dir`. -/
structure Addressed (disk : Disk) (list : List Text) (i : Nat) (dir : Text) : Prop
    extends Located disk list i dir where
  directoryJSON : ∃ selected1 selected2,
    .getDirectoryJSON selected1 selected2 ∈ (Page.initial.click i).2 ∧
      linuxPath selected1 = kernelDirPath ++ "/".toList ++ dir ++ "/linux".toList

theorem selected2_null {i : Nat} {selected1 selected2 : Text}
    (sent : .getDirectoryJSON selected1 selected2 ∈ (Page.initial.click i).2) :
    selected2 = "null".toList := by
  cases Nat.lt_or_ge i versionNumber with
  | inl inside =>
      rw [requests_click_initial inside] at sent
      simp_all
  | inr beyond =>
      rw [requests_click_initial_beyond beyond] at sent
      simp_all

/-- With one version the reply is the text for no version, and nothing is looked at. -/
theorem getDirectoryJSON_single (disk : Disk) (selected1 : Text) :
    getDirectoryJSON disk (some selected1) (some "null".toList) =
      .listing (noVersionText ++ "</ul>".toList) [] := by
  have single : isNaNText (some "null".toList) = true := by decide
  simp only [getDirectoryJSON, single, if_true, getDirectoryArchitecture_linuxPath]

theorem not_sameDirectory (disk : Disk) (list : List Text) (i : Nat) (dir : Text) :
    ¬ SameDirectory disk list i dir := by
  intro same
  obtain ⟨selected1, selected2, sent, html, reads, reply, nonempty, _⟩ := same.directoryJSON
  rw [selected2_null sent, getDirectoryJSON_single] at reply
  cases reply
  exact nonempty rfl

/-- The buttons with one digit address the version of their number, -/
theorem addressed_of_digit {disk : Disk} {list : List Text} (registered : Registered list)
    (logged : Logged disk list) {i : Nat} (digit : i < 9)
    (entry : list[i]? = some ("V".toList ++ Nat.toDigits 10 (i + 1))) :
    Addressed disk list i ("V".toList ++ Nat.toDigits 10 (i + 1)) := by
  have inside : i < versionNumber := by unfold versionNumber; omega
  have value := versionDigit_small (by omega : i + 1 < 10)
  have sent := requests_click_initial inside
  have index : arrayIndex (.rat ((i + 1 : ℕ) : ℚ) - .rat 1) = some i := by
    simp [arrayIndex]
  constructor
  · constructor
    · refine ⟨"V".toList ++ Nat.toDigits 10 (i + 1), by rw [sent]; simp, ?_⟩
      rw [getDeviceDriverInfo, value, index, loadVersions_eq_map registered.version logged]
      simp only [Option.bind_some, List.getElem?_map, entry, Option.map_some, Option.join_some]
    · refine ⟨"V".toList ++ Nat.toDigits 10 (i + 1), by rw [sent]; simp, ?_⟩
      rw [wattPath, value]
      exact selectedPath_eq_iff.mpr rfl
    · exact ⟨Nat.toDigits 10 (i + 1), "null".toList, by rw [sent]; simp,
        selectedPath_eq_iff.mpr rfl⟩
  · exact ⟨Nat.toDigits 10 (i + 1), "null".toList, by rw [sent]; simp,
      selectedPath_eq_iff.mpr rfl⟩

theorem dmesgPath_injective {a b : Text} (same : dmesgPath a = dmesgPath b) : a = b := by
  simpa [dmesgPath] using same

/-- A disk on which the boot log of one directory differs from all others. -/
def markedDisk (dir : Text) : Disk where
  readFile path := some (if path = dmesgPath dir then "] initcall".toList else [])
  lstat _ := none

theorem logged_markedDisk (dir : Text) (list : List Text) : Logged (markedDisk dir) list :=
  fun _ _ => rfl

theorem parseDmesg_mark : parseDmesg [] ≠ parseDmesg "] initcall".toList := by decide +kernel

/-- The tenth button asks for the records of the first version. -/
theorem not_located_tenth {list : List Text} (registered : Registered list) {dir : Text}
    (entry : list[9]? = some dir) : ¬ Located (markedDisk dir) list 9 dir := by
  intro located
  obtain ⟨version, sent, served⟩ := located.deviceDriverInfo
  rw [requests_click_initial (by decide)] at sent
  have tenth : version = "V".toList ++ Nat.toDigits 10 10 := by simpa using sent
  have index : arrayIndex (versionDigit ("V".toList ++ Nat.toDigits 10 10) - .rat 1) = some 0 := by
    decide +kernel
  obtain ⟨inside, ninth⟩ := List.getElem?_eq_some_iff.mp entry
  have zero : list[0]? = some list[0] := List.getElem?_eq_getElem _
  have other : dmesgPath list[0] ≠ dmesgPath dir := by
    intro same
    have equal : list[0] = list[9] := (dmesgPath_injective same).trans ninth.symm
    exact absurd (registered.nodup.getElem_inj_iff.mp equal) (by decide)
  rw [getDeviceDriverInfo, tenth, index,
    loadVersions_eq_map registered.version (logged_markedDisk dir list)] at served
  simp only [Option.bind_some, List.getElem?_map, zero, Option.map_some, Option.join_some,
    markedDisk, if_neg other, if_true, Option.some_inj] at served
  exact parseDmesg_mark served

/-- and conversely a version is addressed only by the button of its number. -/
theorem digit_of_addressed {list : List Text} (registered : Registered list) {i : Nat} {dir : Text}
    (entry : list[i]? = some dir)
    (addressed : ∀ disk, Logged disk list → Addressed disk list i dir) :
    i < 9 ∧ dir = "V".toList ++ Nat.toDigits 10 (i + 1) := by
  have located := (addressed (markedDisk dir) (logged_markedDisk dir list)).toLocated
  obtain ⟨selected1, selected2, sent, path⟩ := located.bootgraph
  cases Nat.lt_or_ge i versionNumber with
  | inl inside =>
      rw [requests_click_initial inside] at sent
      have number : selected1 = Nat.toDigits 10 (i + 1) := by simp_all
      have notTenth : i ≠ 9 := by
        rintro rfl
        exact not_located_tenth registered entry located
      refine ⟨by unfold versionNumber at inside; omega, ?_⟩
      rw [← number]
      exact selectedPath_eq_iff.mp path
  | inr beyond =>
      rw [requests_click_initial_beyond beyond] at sent
      simp at sent

/-- No click makes all endpoints serve the directory of its button, since the source tree
    is never looked at. What the click addresses is this directory, whatever the disk
    holds, exactly for the first nine buttons and when the directory has their number. -/
theorem version_identity_never {list : List Text} (registered : Registered list) {i : Nat}
    {dir : Text} (entry : list[i]? = some dir) :
    (∀ disk, ¬ SameDirectory disk list i dir) ∧
      ((∀ disk, Logged disk list → Addressed disk list i dir) ↔
        i < 9 ∧ dir = "V".toList ++ Nat.toDigits 10 (i + 1)) := by
  refine ⟨fun disk => not_sameDirectory disk list i dir, digit_of_addressed registered entry, ?_⟩
  rintro ⟨digit, rfl⟩ disk logged
  exact addressed_of_digit registered logged digit entry

/-- The two versions in the repository. -/
def shippedVersions : List Text := ["V1".toList, "V2".toList]

theorem version_identity_shipped :
    (∀ disk, ¬ SameDirectory disk shippedVersions 0 "V1".toList) ∧
      ∀ disk, Logged disk shippedVersions → Addressed disk shippedVersions 0 "V1".toList := by
  have registered : Registered shippedVersions := ⟨by decide, by decide⟩
  have entry : shippedVersions[0]? = some "V1".toList := rfl
  obtain ⟨never, addressed⟩ := version_identity_never registered entry
  exact ⟨never, addressed.mpr ⟨by decide, by decide⟩⟩

def smallDisk : Disk where
  readFile _ := some []
  lstat path := if path = linuxPath "1".toList then some (.dir [("Makefile".toList, .file)]) else none

/-- Eleven versions in the order of `readdir`. -/
def elevenVersions : List Text :=
  ["V1", "V10", "V11", "V2", "V3", "V4", "V5", "V6", "V7", "V8", "V9"].map String.toList

/-- The tree of the first version is there and not listed; among eleven versions the
    second button addresses another directory than the second one. -/
theorem version_identity_fails :
    getDirectoryJSON smallDisk (some "1".toList) (some "null".toList) =
        .listing (noVersionText ++ "</ul>".toList) [] ∧
      ¬ SameDirectory smallDisk shippedVersions 0 "V1".toList ∧
      elevenVersions[1]? = some "V10".toList ∧
      ¬ ∀ disk, Logged disk elevenVersions → Addressed disk elevenVersions 1 "V10".toList := by
  refine ⟨getDirectoryJSON_single _ _, not_sameDirectory _ _ _ _, rfl, fun addressed => ?_⟩
  have registered : Registered elevenVersions := ⟨by decide, by decide⟩
  exact absurd (digit_of_addressed registered rfl addressed).2 (by decide)

end OslabProfiler.Server

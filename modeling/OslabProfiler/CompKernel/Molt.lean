import OslabProfiler.CompKernel.SkinMirror

/-! # molt.c

`molt` walks two skins side by side and copies, for every file that both of
them have with different digests, the file which the second skin was made from.
The `while` loop of `molting_dir` advances by the names alone, so it is the
loop over the turns of a merge join.
-/

namespace OslabProfiler.CompKernel

open Lib Lib.FileTree

/-- `read` into a buffer: the bytes there are, and the old ones behind them. -/
def readInto (data buf : Bytes) (n : Nat) : Bytes := data.take n ++ buf.drop (min n data.length)

/-- What opening a skin file and reading its two parts leaves in `hash` and
    `buf`; a file that does not open leaves both unset. -/
def readSkin (junk : Junk) (path : Bytes) : Prog (Bytes × Bytes) := do
  match ← contents path with
  | none => pure (junk.hash path, junk.buf path)
  | some data =>
      pure (readInto data (junk.hash path) HASHLEN,
        readInto (data.drop HASHLEN) (junk.buf path) BUFMAX)

/-- `hash[HASHLEN-1] = 0`, as a string. -/
def cutHash (hash : Bytes) : Bytes := cString (hash.take (HASHLEN - 1) ++ [0])

def moltingFile (junk : Junk) (oPath cPath mPath : Bytes) : Prog Unit := do
  let (oHash, _) ← readSkin junk oPath
  let (cHash, cBuf) ← readSkin junk cPath
  if strcmp (cutHash oHash) (cutHash cHash) = 0 then pure ()
  else
    if ← access mPath then pure () else system (.mkdirDirname mPath)
    system (.cp (cString cBuf) mPath)

/-- The body of the loop of `molting_dir` on the two names it looks at. Both
    `struct stat` are shared by all turns. -/
def moltingStep (junk : Junk) (moltingDir : Bytes → Bytes → Bytes → Prog Unit)
    (oPath cPath mPath : Bytes) (stats : Bool × Bool) (names : Name × Name) :
    Prog (Bool × Bool) := do
  let tmpO ← sprintf (child oPath names.1)
  let tmpC ← sprintf (child cPath names.2)
  let oStat ← stat tmpO stats.1
  let cStat ← stat tmpC stats.2
  if strcmp names.1.bytes names.2.bytes = 0 then
    let tmpM ← sprintf (child mPath names.1)
    if oStat = true ∧ cStat = true then moltingDir tmpO tmpC tmpM
    else if oStat = false ∧ cStat = false then moltingFile junk tmpO tmpC tmpM
    else pure ()
  else pure ()
  pure (oStat, cStat)

/-- The pairs of names which a merge loop looks at. -/
def mergeNames (xs ys : List Name) : List (Name × Name) :=
  MergeJoin.mergeSteps (fun x y => strcmp x.bytes y.bytes) xs ys

def moltingDir (junk : Junk) : Nat → Bytes → Bytes → Bytes → Prog Unit
  | 0, _, _, _ => Command.stop .depth
  | n + 1, oPath, cPath, mPath => do
      match ← scandir oPath with
      | none => pure ()
      | some oFilelist =>
          match ← scandir cPath with
          | none => pure ()
          | some cFilelist =>
              let _ ← Command.fold (moltingStep junk (moltingDir junk n) oPath cPath mPath)
                (junk.isDir oPath, junk.isDir cPath) (mergeNames oFilelist cFilelist)

/-- `main` of molt.c once the three paths are known. -/
def molt (junk : Junk) (oPath cPath mPath : Bytes) : Prog Unit := do
  freshDir mPath
  moltingDir junk BUFMAX oPath cPath mPath

/-! ## Decoding a skin record -/

/-- The digest that a skin file starts with. -/
def storedHash (record : Bytes) : Bytes := record.take (HASHLEN - 1)

@[simp] theorem storedHash_skinRecord (lib : Md5) (path data : Bytes) :
    storedHash (skinRecord lib path data) = hex (lib.digest data).toList := by
  have length : (hex (lib.digest data).toList).length = HASHLEN - 1 := by
    simp [HASHLEN]
  simp only [storedHash, skinRecord, List.append_assoc, ← length, List.take_left]

/-- The stored digests tell the files apart which the digests tell apart. -/
theorem storedHash_eq_iff (lib : Md5) (path path' a b : Bytes) :
    storedHash (skinRecord lib path a) = storedHash (skinRecord lib path' b) ↔
      lib.digest a = lib.digest b := by
  rw [storedHash_skinRecord, storedHash_skinRecord, hex_injective.eq_iff,
    List.Vector.toList_injective.eq_iff]

theorem length_skinRecord (lib : Md5) (path data : Bytes) :
    HASHLEN ≤ (skinRecord lib path data).length := by
  simp [skinRecord, HASHLEN, ascii]
  omega

/-- A digest that was read from a file which is long enough does not depend on what the
    buffer held before. -/
theorem cutHash_readInto {data : Bytes} (long : HASHLEN ≤ data.length) (rest : Bytes) :
    cutHash (readInto data rest HASHLEN) = cutHash data := by
  have inside : HASHLEN - 1 ≤ (data.take HASHLEN).length := by
    rw [List.length_take, Nat.min_eq_left long]
    exact Nat.sub_le _ _
  rw [cutHash, readInto, List.take_append_of_le_length inside, List.take_take,
    show min (HASHLEN - 1) HASHLEN = HASHLEN - 1 from rfl, cutHash]

theorem cutHash_skinRecord (lib : Md5) (path data rest : Bytes) :
    cutHash (readInto (skinRecord lib path data) rest HASHLEN) =
      hex (lib.digest data).toList := by
  rw [cutHash_readInto (length_skinRecord lib path data), cutHash]
  rw [show (skinRecord lib path data).take (HASHLEN - 1) =
    storedHash (skinRecord lib path data) from rfl, storedHash_skinRecord, cString_hex]

theorem drop_skinRecord (lib : Md5) (path data : Bytes) :
    (skinRecord lib path data).drop HASHLEN = path ++ [0] := by
  have length : (hex (lib.digest data).toList ++ ascii "|").length = HASHLEN := by
    simp [HASHLEN, ascii]
  rw [skinRecord, List.append_assoc _ path, ← length, List.drop_left]

theorem cString_path {path : Bytes} (string : 0 ∉ path) (rest : Bytes) :
    cString (path ++ 0 :: rest) = path := by
  have all : ∀ b ∈ path, (decide (b ≠ 0)) = true := by
    intro b member
    simp only [decide_eq_true_eq]
    intro zero
    exact string (zero ▸ member)
  rw [cString, List.takeWhile_append_of_pos all]
  simp

/-- The path in a record comes back whole when it is a string that fits. -/
theorem cString_skinRecord (lib : Md5) {path : Bytes} (data rest : Bytes) (string : 0 ∉ path)
    (fits : path.length < BUFMAX) :
    cString (readInto ((skinRecord lib path data).drop HASHLEN) rest BUFMAX) = path := by
  rw [drop_skinRecord, readInto, List.take_of_length_le (by simp; omega), List.append_assoc,
    List.singleton_append, cString_path string]

theorem zero_not_mem_extend {path : Bytes} (string : 0 ∉ path) (p : List Name) :
    0 ∉ extend path p := by
  induction p generalizing path with
  | nil => exact string
  | cons x p ih =>
      apply ih
      intro member
      cases List.mem_append.mp member with
      | inl old => exact string old
      | inr new =>
          cases List.mem_cons.mp new with
          | inl isSlash => cases isSlash
          | inr inName => exact x.valid.2.2.1 inName

/-- Two digests that differ are told apart by `strcmp` of their texts. -/
theorem strcmp_hex (a b : Digest) : strcmp (hex a.toList) (hex b.toList) = 0 ↔ a = b := by
  rw [strcmp_eq_zero (zero_not_mem_hex _) (zero_not_mem_hex _)]
  constructor
  · intro same
    exact List.Vector.toList_injective (hex_injective same)
  · intro same
    rw [same]

/-! ## The round trip of a record -/

/-- A file is skinned and its skin is read back. -/
def skinThenRead (lib : Md5) (junk junk' : Junk) (fpath spath : Bytes) : Prog (Bytes × Bytes) := do
  skinningFile lib junk fpath spath
  readSkin junk' spath

/-- What `molting_file` finds in a skin file, whatever its buffers held: the digest of
    the source and its path. Only the writer has a buffer that the record may not fit. -/
theorem skinThenRead_wp (lib : Md5) (junk junk' : Junk) {fpath spath data : Bytes} {w : World}
    {d : List Name} {x : Name} (string : 0 ∉ fpath) (place : locate spath = d ++ [x])
    (readable : w.fs.get (locate fpath) = some (.file data))
    (above : w.fs.get d = some .dir) (free : Entry.writable (w.fs.get (d ++ [x])) = true) :
    (skinThenRead lib junk junk' fpath spath).wp
      (fun found _ => HASHLEN + fpath.length < BUFMAX ∧
        cutHash found.1 = hex (lib.digest data).toList ∧ cString found.2 = fpath)
      (fun _ _ => ¬ HASHLEN + fpath.length < BUFMAX) w := by
  simp only [skinThenRead, Command.wp_bind]
  refine Command.wp_mono (skinningFile_wp lib junk place readable above free) ?_ (fun _ _ h => h)
  intro _ w' done
  have written : w'.fs.get (locate spath) = some (.file (skinRecord lib fpath data)) := by
    rw [place, done.2, if_pos rfl]
  simp only [readSkin, contents, Command.wp_bind, Command.wp_read, written, Command.wp_pure]
  have fits := done.1
  exact ⟨fits, cutHash_skinRecord lib fpath data _,
    cString_skinRecord lib data _ string (by omega)⟩

/-- A record survives the round trip exactly when the path leaves room for the digest,
    the bar and the NUL in the one buffer which the record is formatted in. -/
theorem record_survives_iff (lib : Md5) (junk junk' : Junk) (w : World) (fpath spath data : Bytes)
    (d : List Name) (x : Name) (string : 0 ∉ fpath) (place : locate spath = d ++ [x])
    (readable : w.fs.get (locate fpath) = some (.file data))
    (above : w.fs.get d = some .dir) (free : Entry.writable (w.fs.get (d ++ [x])) = true) :
    (∃ found w', (skinThenRead lib junk junk' fpath spath).Ends w found w' ∧
      cutHash found.1 = hex (lib.digest data).toList ∧ cString found.2 = fpath) ↔
    fpath.length ≤ BUFMAX - HASHLEN - 1 := by
  have outcome := skinThenRead_wp lib junk junk' string place readable above free
  have room : HASHLEN + fpath.length < BUFMAX ↔ fpath.length ≤ BUFMAX - HASHLEN - 1 := by
    simp only [HASHLEN, BUFMAX]
    omega
  rw [← room]
  constructor
  · rintro ⟨found, w', ended, _⟩
    exact (Command.wp_ends outcome ended).1
  · intro fits
    obtain ⟨found, w', ended, done⟩ :=
      Command.ends_of_unstopped outcome fun _ _ large => large fits
    exact ⟨found, w', ended, done.2⟩

theorem record_survives_small :
    ∃ found w', (skinThenRead plainMd5 zeroJunk zeroJunk (child [] nameF) (child [] nameS)).Ends
        ⟨oneFile [] nameF [7], []⟩ found w' ∧
      cutHash found.1 = hex (plainMd5.digest [7]).toList ∧ cString found.2 = child [] nameF :=
  (record_survives_iff plainMd5 zeroJunk zeroJunk ⟨oneFile [] nameF [7], []⟩ (child [] nameF)
    (child [] nameS) [7] [] nameS (by decide) (by decide) (by decide) (by decide) (by decide)).mpr
    (by decide)

/-- The first length for which the record buffer is too small: a path of 4063 bytes. -/
def edgeName : Name := sameByte 98 46 (by decide)

def edgeTree : Fs := oneFile (locate deepPath) edgeName []

theorem length_edgePath : (child deepPath edgeName).length = 4063 := by
  simp only [child, deepPath, longName, edgeName, sameByte, List.length_append, length_extend,
    List.map_replicate, List.length_replicate, List.sum_replicate, List.length_cons,
    List.length_nil, smul_eq_mul]

/-- The path fits the path buffers of `skinning_dir` and its record overflows. -/
theorem record_lost_at_edge :
    (child deepPath edgeName).length < BUFMAX ∧
    edgeTree.get (locate (child deepPath edgeName)) = some (.file []) ∧
    ¬ ∃ found w', (skinThenRead plainMd5 zeroJunk zeroJunk (child deepPath edgeName)
        (child [] nameS)).Ends ⟨edgeTree, []⟩ found w' ∧
      cutHash found.1 = hex (plainMd5.digest []).toList ∧
      cString found.2 = child deepPath edgeName := by
  have readable : edgeTree.get (locate (child deepPath edgeName)) = some (.file []) := by
    rw [locate_child]
    exact get_oneFile _ _ _
  have string : 0 ∉ child deepPath edgeName := by
    rw [deepPath, extend_snoc]
    exact zero_not_mem_extend List.not_mem_nil _
  have place : locate (child [] nameS) = [] ++ [nameS] := by rw [locate_child]; rfl
  have missing : edgeTree.get ([] ++ [nameS]) = none := by
    have other : nameS ≠ longName := by decide
    rw [edgeTree, oneFile, deepPath, locate_extend]
    simp [List.replicate_succ, other, locate, push, IsName]
  refine ⟨by simp only [length_edgePath, BUFMAX]; omega, readable, ?_⟩
  have free : Entry.writable (edgeTree.get ([] ++ [nameS])) = true := by
    rw [missing]
    rfl
  have root := edgeTree.root
  -- from here on only these facts about the tree count
  generalize edgeTree = fs at readable free root
  have outcome := skinThenRead_wp plainMd5 zeroJunk zeroJunk (w := ⟨fs, []⟩)
    string place readable root free
  rintro ⟨found, w', ended, _⟩
  have fits := (Command.wp_ends outcome ended).1
  simp only [length_edgePath, HASHLEN, BUFMAX] at fits
  omega

end OslabProfiler.CompKernel

import OslabProfiler.CompKernel.Molt

/-! # ssu_diff.c

`ssu_diff` walks two molts side by side. A file that both have is compared by
the digests in the two skins; a file that only one has is compared with the
original. A report is one `diff` that is printed and run.
-/

namespace OslabProfiler.CompKernel

open Lib Lib.FileTree

/-- The line `diff A B` fits the buffer it is formatted into. -/
def Report.Fits (r : Report) : Prop :=
  (ascii "diff " ++ r.left ++ ascii " " ++ r.right).length < BUFMAX

/-- The line `diff A B`, printed and run. -/
def report (left right : Bytes) : Prog Unit := do
  let _ ← sprintf (ascii "diff " ++ left ++ ascii " " ++ right)
  Command.update fun w => { w with out := w.out ++ [⟨left, right⟩] }

/-- What opening a skin file and reading its digest leaves in `hash`. -/
def readHash (junk : Junk) (path : Bytes) : Prog Bytes := do
  match ← contents path with
  | none => pure (junk.hash path)
  | some data => pure (readInto data (junk.hash path) HASHLEN)

def diffFile (junk : Junk) (mPath1 mPath2 sPath1 sPath2 : Bytes) : Prog Unit := do
  let hash1 ← readHash junk sPath1
  let hash2 ← readHash junk sPath2
  if strcmp (cutHash hash1) (cutHash hash2) ≠ 0 then report mPath1 mPath2 else pure ()

def diffFileOrg (path1 path2 : Bytes) : Prog Unit := report path1 path2

/-- One call of `diff_dir`, apart from the calls it makes. The source assigns the
    comparison `scandir(...) < 0` to `count`, so `count` is 0 when the directory could
    be read. -/
def diffDirBody (junk : Junk) (diffDir : Bytes → Bytes → Bool → Prog Unit) (path1 path2 : Bytes)
    (flag : Bool) : Prog Unit := do
  let oPath := if flag then path1 else path2
  let mPath := if flag then path2 else path1
  let filelist ← scandir mPath
  let count := if filelist.isNone then 1 else 0
  if count ≠ 0 then pure ()
  else
    let _ ← Command.fold (fun statbuf file => do
        let tmpM ← sprintf (child mPath file)
        let tmpO ← sprintf (child oPath file)
        let statbuf ← stat tmpM statbuf
        if statbuf then
          if flag then diffDir tmpO tmpM flag else diffDir tmpM tmpO flag
        else
          if flag then diffFileOrg tmpO tmpM else diffFileOrg tmpM tmpO
        pure statbuf)
      (junk.isDir mPath) ((filelist.getD []).take count)

def diffDir (junk : Junk) : Nat → Bytes → Bytes → Bool → Prog Unit
  | 0, _, _, _ => Command.stop .depth
  | n + 1, path1, path2, flag => diffDirBody junk (diffDir junk n) path1 path2 flag

/-- The body of the loop of `comp_dir` on the two names it looks at. -/
def compStep (junk : Junk) (compDir : Bytes → Bytes → Bytes → Bytes → Bytes → Prog Unit)
    (oPath mPath1 mPath2 sPath1 sPath2 : Bytes) (stats : Bool × Bool) (names : Name × Name) :
    Prog (Bool × Bool) := do
  let tmpM1 ← sprintf (child mPath1 names.1)
  let tmpM2 ← sprintf (child mPath2 names.2)
  let tmpS1 ← sprintf (child sPath1 names.1)
  let tmpS2 ← sprintf (child sPath2 names.2)
  let mStat1 ← stat tmpM1 stats.1
  let mStat2 ← stat tmpM2 stats.2
  let n := strcmp names.1.bytes names.2.bytes
  if n = 0 then
    if mStat1 = true ∧ mStat2 = true then
      let tmpO ← sprintf (child oPath names.1)
      compDir tmpO tmpM1 tmpM2 tmpS1 tmpS2
    else if mStat1 = false ∧ mStat2 = false then diffFile junk tmpM1 tmpM2 tmpS1 tmpS2
    else pure ()
  else if n < 0 then
    let tmpO ← sprintf (child oPath names.1)
    let oStat ← stat tmpO (junk.isDir tmpO)
    if mStat1 = true ∧ oStat = true then diffDir junk BUFMAX tmpM1 tmpO false
    else if mStat1 = false ∧ oStat = false then diffFileOrg tmpM1 tmpO
    else pure ()
  else
    let tmpO ← sprintf (child oPath names.2)
    let oStat ← stat tmpO (junk.isDir tmpO)
    if oStat = true ∧ mStat2 = true then diffDir junk BUFMAX tmpO tmpM2 true
    else if oStat = false ∧ mStat2 = false then diffFileOrg tmpO tmpM2
    else pure ()
  pure (mStat1, mStat2)

def compDir (junk : Junk) : Nat → Bytes → Bytes → Bytes → Bytes → Bytes → Prog Unit
  | 0, _, _, _, _, _ => Command.stop .depth
  | n + 1, oPath, mPath1, mPath2, sPath1, sPath2 => do
      match ← scandir mPath1 with
      | none => pure ()
      | some mFilelist1 =>
          match ← scandir mPath2 with
          | none => pure ()
          | some mFilelist2 =>
              let _ ← Command.fold
                (compStep junk (compDir junk n) oPath mPath1 mPath2 sPath1 sPath2)
                (junk.isDir mPath1, junk.isDir mPath2) (mergeNames mFilelist1 mFilelist2)

/-- `main` of ssu_diff.c once the five paths are known. -/
def ssuDiff (junk : Junk) (orgPath moltPath1 moltPath2 skinPath1 skinPath2 : Bytes) : Prog Unit :=
  compDir junk BUFMAX orgPath moltPath1 moltPath2 skinPath1 skinPath2

section Rules

variable {E : Stop → World → Prop} {w : World}

@[simp] theorem wp_report {left right : Bytes} {Q : Unit → World → Prop} :
    (report left right).wp Q E w ↔
      (Report.Fits ⟨left, right⟩ → Q () { w with out := w.out ++ [⟨left, right⟩] }) ∧
      (¬ Report.Fits ⟨left, right⟩ → E .overflow w) := by
  simp [report, Report.Fits]

/-- `diff_dir` looks at no entry of its directory and reports nothing. -/
theorem diffDirBody_wp (junk : Junk) (recur : Bytes → Bytes → Bool → Prog Unit)
    (path1 path2 : Bytes) (flag : Bool) {Q : Unit → World → Prop} (same : Q () w) :
    (diffDirBody junk recur path1 path2 flag).wp Q E w := by
  simp only [diffDirBody, Command.wp_bind, wp_scandir, Command.wp_ite]
  constructor
  · intro _
    exact same
  · intro nonzero
    have zero := not_not.mp nonzero
    rw [zero, List.take_zero]
    exact same

theorem diffFile_wp (junk : Junk) {lib : Md5} {mPath1 mPath2 sPath1 sPath2 : Bytes}
    {path1 path2 data1 data2 : Bytes}
    (skin1 : w.fs.get (locate sPath1) = some (.file (skinRecord lib path1 data1)))
    (skin2 : w.fs.get (locate sPath2) = some (.file (skinRecord lib path2 data2)))
    {Q : Unit → World → Prop}
    (equal : lib.digest data1 = lib.digest data2 → Q () w)
    (differ : lib.digest data1 ≠ lib.digest data2 → Report.Fits ⟨mPath1, mPath2⟩ →
      Q () { w with out := w.out ++ [⟨mPath1, mPath2⟩] })
    (stopped : lib.digest data1 ≠ lib.digest data2 → ¬ Report.Fits ⟨mPath1, mPath2⟩ →
      E .overflow w) :
    (diffFile junk mPath1 mPath2 sPath1 sPath2).wp Q E w := by
  simp only [diffFile, readHash, contents, Command.wp_bind, Command.wp_read, skin1, skin2,
    Command.wp_pure, cutHash_skinRecord, Command.wp_ite, wp_report, ne_eq, strcmp_hex, not_not]
  exact ⟨fun h => ⟨differ h, stopped h⟩, equal⟩

end Rules

end OslabProfiler.CompKernel

import OslabProfiler.CompKernel.Pipeline

/-! # diff_dir

`diff_dir` is called for a directory that only one of the molts has. It should
report every file below it against the original. The source stores the outcome of
the comparison `scandir(...) < 0` where the number of entries belongs, so a
directory that can be read has no entries for the loop.
-/

namespace OslabProfiler.CompKernel

open Lib Lib.FileTree

/-- The molt's side and the original's side of a pair: the molt is on the left when
    `flag` is 0 and on the right when it is 1. -/
def pairOf (flag : Bool) (mSide oSide : Bytes) : Report :=
  if flag then ⟨oSide, mSide⟩ else ⟨mSide, oSide⟩

/-- Whatever the inner calls would do, none is made and nothing is reported. -/
theorem diffDirBody_ends (junk : Junk) (recur : Bytes → Bytes → Bool → Prog Unit)
    (path1 path2 : Bytes) (flag : Bool) (w : World) :
    (diffDirBody junk recur path1 path2 flag).Ends w () w := by
  have spec : (diffDirBody junk recur path1 path2 flag).wp (fun _ w' => w' = w)
      (fun _ _ => False) w := diffDirBody_wp junk recur path1 path2 flag rfl
  obtain ⟨_, w', run, same⟩ := Command.ends_of_wp spec
  rw [same] at run
  exact run

theorem diffDir_ends (junk : Junk) (path1 path2 : Bytes) (flag : Bool) (w : World) :
    (diffDir junk BUFMAX path1 path2 flag).Ends w () w := by
  rw [show BUFMAX = 4095 + 1 from rfl, diffDir]
  exact diffDirBody_ends junk _ path1 path2 flag w

/-- The call for `m` and `o` goes into the directory `x` of `m`: if the call for `x`
    ended the process, the process would end. -/
def Descends (junk : Junk) (m o : Bytes) (flag : Bool) (w : World) (x : Name) : Prop :=
  let outer := pairOf flag m o
  let inner := pairOf flag (child m x) (child o x)
  let probe (path1 path2 : Bytes) (flag : Bool) : Prog Unit :=
    if path1 = inner.left ∧ path2 = inner.right then exit 0
    else diffDir junk (BUFMAX - 1) path1 path2 flag
  (diffDirBody junk probe outer.left outer.right flag w).1 = .error (.exit 0)

/-- `r` is the pair for a regular file below `m`, outside `.git`; whether the file can
    be opened does not matter here. -/
def IsPairBelow (fs : Fs) (m o : Bytes) (flag : Bool) (r : Report) : Prop :=
  ∃ p e, p.all scandirFilter = true ∧ fs.get (locate m ++ p) = some e ∧
    (e.kind = .file ∨ e.kind = .locked) ∧ r = pairOf flag (extend m p) (extend o p)

/-- The call ends, every file below `m` is reported once and nothing else is, and the
    call goes into every directory in `m`. -/
structure ReportsSubtree (junk : Junk) (m o : Bytes) (flag : Bool) (w : World) : Prop where
  ends : ∃ w',
    (diffDir junk BUFMAX (pairOf flag m o).left (pairOf flag m o).right flag).Ends w () w' ∧
    (reports w w').Nodup ∧ ∀ r, r ∈ reports w w' ↔ IsPairBelow w.fs m o flag r
  descends : ∀ x, scandirFilter x = true → w.fs.get (locate m ++ [x]) = some .dir →
    Descends junk m o flag w x

theorem not_descends (junk : Junk) (m o : Bytes) (flag : Bool) (w : World) (x : Name) :
    ¬ Descends junk m o flag w x := by
  intro stops
  rw [Descends, diffDirBody_ends junk _ _ _ flag w] at stops
  cases stops

theorem reports_self (w : World) : reports w w = [] := List.drop_length

/-- With a file anywhere below `m`, a pair is missing. -/
theorem not_reportsSubtree_of_file {junk : Junk} {m o : Bytes} {flag : Bool} {w : World}
    {p : List Name} {e : Entry Bytes} (clean : p.all scandirFilter = true)
    (entry : w.fs.get (locate m ++ p) = some e) (file : e.kind = .file ∨ e.kind = .locked) :
    ¬ ReportsSubtree junk m o flag w := by
  intro whole
  obtain ⟨w', run, _, pairs⟩ := whole.ends
  have still : w' = w :=
    (Prod.mk.inj (run.symm.trans (diffDir_ends junk _ _ flag w))).2
  have reported := (pairs _).mpr ⟨p, e, clean, entry, file, rfl⟩
  rw [still, reports_self] at reported
  cases reported

/-- `diff_dir` reports a whole subtree exactly when the directory is empty up to `.git`. -/
theorem reportsSubtree_iff (junk : Junk) (m o : Bytes) (flag : Bool) (w : World)
    (root : w.fs.get (locate m) = some .dir)
    (noLinks : ∀ p, w.fs.get (locate m ++ p) ≠ some .dangling) :
    ReportsSubtree junk m o flag w ↔
      ∀ x, scandirFilter x = true → w.fs.get (locate m ++ [x]) = none := by
  constructor
  · intro whole x clean
    have cleanPath : [x].all scandirFilter = true := by simp [clean]
    cases entry : w.fs.get (locate m ++ [x]) with
    | none => rfl
    | some e =>
        cases e with
        | file data => exact (not_reportsSubtree_of_file cleanPath entry (.inl rfl) whole).elim
        | dir => exact (not_descends junk m o flag w x (whole.descends x clean entry)).elim
        | locked => exact (not_reportsSubtree_of_file cleanPath entry (.inr rfl) whole).elim
        | dangling => exact (noLinks [x] entry).elim
  · intro empty
    have noPair : ∀ r, ¬ IsPairBelow w.fs m o flag r := by
      rintro r ⟨p, e, clean, entry, file, _⟩
      cases p with
      | nil =>
          rw [List.append_nil, root, Option.some_inj] at entry
          subst entry
          cases file with
          | inl h => cases h
          | inr h => cases h
      | cons x p =>
          rw [List.all_cons, Bool.and_eq_true] at clean
          have above : w.fs.get (locate m ++ [x]) ≠ none := by
            apply w.fs.present_above _ p
            rw [List.append_assoc, List.singleton_append, entry]
            simp
          exact above (empty x clean.1)
    refine ⟨⟨w, diffDir_ends junk _ _ flag w, ?_, ?_⟩, ?_⟩
    · rw [reports_self]
      exact List.nodup_nil
    · intro r
      rw [reports_self]
      exact ⟨fun h => (List.not_mem_nil h).elim, fun h => (noPair r h).elim⟩
    · intro x clean isDir
      rw [empty x clean] at isDir
      cases isDir

/-- The file `f` in `/s/d` and in `/o/d`. -/
def oneBelow : World :=
  ⟨planted [([nameO, nameD, nameF], []), ([nameS, nameD, nameF], [1])], []⟩

def belowS : Bytes := child (child [] nameS) nameD

def belowO : Bytes := child (child [] nameO) nameD

theorem reportsSubtree_oneBelow :
    ReportsSubtree zeroJunk belowS belowO false oneBelow ↔
      ∀ x, scandirFilter x = true → oneBelow.fs.get (locate belowS ++ [x]) = none := by
  have plain : Source oneBelow.fs belowS := .of_allPlain (by decide +kernel) (by decide +kernel)
  exact reportsSubtree_iff zeroJunk belowS belowO false oneBelow plain.root
    fun p link => (plain.plain p _ link).elim

theorem oneBelow_not_reported :
    oneBelow.fs.get (locate belowS ++ [nameF]) = some (.file [1]) ∧
    oneBelow.fs.get (locate belowO ++ [nameF]) = some (.file []) ∧
    ¬ ReportsSubtree zeroJunk belowS belowO false oneBelow ∧
    ¬ ReportsSubtree zeroJunk belowS belowO true oneBelow := by
  have file : oneBelow.fs.get (locate belowS ++ [nameF]) = some (.file [1]) := by decide +kernel
  refine ⟨file, by decide +kernel, ?_, ?_⟩
  · exact not_reportsSubtree_of_file (by decide) file (.inl rfl)
  · exact not_reportsSubtree_of_file (by decide) file (.inl rfl)

end OslabProfiler.CompKernel

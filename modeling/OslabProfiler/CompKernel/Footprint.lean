import OslabProfiler.CompKernel.SkinMirror

/-! # What skinning touches

`skinning_dir` writes only at its second path and below, whatever it finds in the first
one and however it comes out. So a source that lies apart from the skin stays as it was
from turn to turn, and what one turn of the loop writes is not touched by the others.
-/

namespace OslabProfiler.CompKernel

open Lib Lib.FileTree

/-- The tree has grown, and only at `l` or below it. -/
def GrowsWithin (l : List Name) (w w' : World) : Prop := Within l w.fs w'.fs

instance (l : List Name) : Std.Refl (GrowsWithin l) := ⟨fun w => Within.refl l w.fs⟩

instance (l : List Name) : IsTrans World (GrowsWithin l) := ⟨fun _ _ _ h h' => Within.trans h h'⟩

section Always

open Command

section Calls

variable {R : World → World → Prop} [Std.Refl R]

theorem always_sprintf (text : Bytes) : Always R (sprintf text) :=
  always_ite (always_pure _) (always_stop _)

/-- What follows a `sprintf` sees the text that was formatted. -/
theorem always_sprintf_bind {α : Type} {text : Bytes} {next : Bytes → Prog α}
    (rest : Always R (next text)) : Always R (sprintf text >>= next) := by
  intro w
  rw [sprintf]
  split
  · exact rest w
  · exact refl_of R w

theorem always_contents (path : Bytes) : Always R (contents path) := always_read _

theorem always_scandir (path : Bytes) : Always R (scandir path) := always_read _

theorem always_stat (path : Bytes) (statbuf : Bool) : Always R (stat path statbuf) := always_read _

theorem always_access (path : Bytes) : Always R (access path) := always_read _

theorem always_md5 [IsTrans World R] (lib : Md5) (path hash : Bytes) :
    Always R (md5 lib path hash) := by
  refine always_bind (always_contents _) fun data => ?_
  cases data <;> exact always_pure _

end Calls

theorem mkdir_within (path : Bytes) : Always (GrowsWithin (locate path)) (mkdir path) := by
  intro w
  cases List.eq_nil_or_concat' (locate path) with
  | inl root =>
      simp only [mkdir, update, FileTree.mkdir, root]
      exact Within.refl _ _
  | inr named =>
      obtain ⟨d, x, here⟩ := named
      simp only [mkdir, update, FileTree.mkdir, here, onLast_append]
      exact (mkdirAt_change w.fs d x).within

theorem openTrunc_within (path : Bytes) : Always (GrowsWithin (locate path)) (openTrunc path) := by
  intro w
  have outcome : (openTrunc path).wp (fun _ w' => GrowsWithin (locate path) w w')
      (fun _ w' => GrowsWithin (locate path) w w') w := by
    rw [wp_openTrunc]
    exact ⟨fun fs opened => (write_change opened).within, fun _ => Within.refl _ _⟩
  exact wp_final outcome

theorem writeAll_within (path data : Bytes) :
    Always (GrowsWithin (locate path)) (writeAll path data) := by
  intro w
  simp only [writeAll, update, GrowsWithin]
  cases written : w.fs.write (locate path) data with
  | none => exact Within.refl _ _
  | some fs => exact (write_change written).within

theorem skinningFile_within (lib : Md5) (junk : Junk) (fpath spath : Bytes) :
    Always (GrowsWithin (locate spath)) (skinningFile lib junk fpath spath) := by
  refine always_bind (always_md5 _ _ _) fun hash => ?_
  refine always_bind (openTrunc_within _) fun opened => ?_
  apply always_ite
  · exact always_bind (always_sprintf _) fun _ => writeAll_within _ _
  · exact always_stop _

/-- One turn of the loop writes at the place of its entry. -/
theorem skinningEntry_within (lib : Md5) (junk : Junk) {recur : Bytes → Bytes → Prog Unit}
    (deeper : ∀ f s, Always (GrowsWithin (locate s)) (recur f s)) (fpath spath : Bytes)
    (statbuf : Bool) (file : Name) :
    Always (GrowsWithin (locate spath ++ [file]))
      (skinningEntry lib junk recur fpath spath statbuf file) := by
  rw [← locate_child]
  refine always_sprintf_bind (always_sprintf_bind ?_)
  refine always_bind (always_stat _ _) fun isDir => ?_
  apply always_ite
  · exact always_bind (mkdir_within _) fun _ => always_bind (deeper _ _) fun _ => always_pure _
  · exact always_bind (skinningFile_within _ _ _ _) fun _ => always_pure _

theorem skinningDir_within (lib : Md5) (junk : Junk) (n : Nat) (fpath spath : Bytes) :
    Always (GrowsWithin (locate spath)) (skinningDir lib junk n fpath spath) := by
  induction n generalizing fpath spath with
  | zero => exact always_stop _
  | succ n ih =>
      unfold skinningDir
      refine always_bind (always_scandir _) fun filelist => ?_
      cases filelist with
      | none => exact always_pure _
      | some names =>
          refine always_bind (always_fold (fun statbuf file => ?_) _ _) fun _ => always_pure _
          exact (skinningEntry_within lib junk ih fpath spath statbuf file).mono
            fun _ _ moved => Within.widen moved (List.prefix_append _ _)

end Always

/-! ## Rules for the loop -/

section Rules

variable {lib : Md5} {junk : Junk} {fpath spath : Bytes} {E : Stop → World → Prop} {w : World}

/-- One turn: a text does not fit, or the entry is taken for a directory, or for a file. -/
theorem skinningEntry_rule {recur : Bytes → Bytes → Prog Unit} {statbuf : Bool} {file : Name}
    {Q : Bool → World → Prop}
    (large : ¬ ((child fpath file).length < BUFMAX ∧ (child spath file).length < BUFMAX) →
      E .overflow w)
    (dir : (statOf (w.fs.get (locate fpath ++ [file]))).getD statbuf = true →
      (recur (child fpath file) (child spath file)).wp (fun _ w' => Q true w') E
        { w with fs := w.fs.mkdirAt (locate spath) file })
    (plain : (statOf (w.fs.get (locate fpath ++ [file]))).getD statbuf = false →
      (skinningFile lib junk (child fpath file) (child spath file)).wp
        (fun _ w' => Q false w') E w) :
    (skinningEntry lib junk recur fpath spath statbuf file).wp Q E w := by
  simp only [skinningEntry, Command.wp_bind, wp_sprintf, wp_stat, Command.wp_ite, wp_mkdir,
    locate_child, FileTree.mkdir, onLast_append, Command.wp_pure]
  refine ⟨fun _ => ⟨fun _ => ?_, fun tooLong => large fun both => tooLong both.2⟩,
    fun tooLong => large fun both => tooLong both.1⟩
  cases kind : (statOf (w.fs.get (locate fpath ++ [file]))).getD statbuf with
  | true => exact ⟨fun _ => dir kind, fun no => (no rfl).elim⟩
  | false => exact ⟨fun no => Bool.noConfusion no, fun _ => plain kind⟩

/-- The loop, by what holds of the entries that are still to come. -/
theorem skinningDir_rule {n : Nat} (I : List Name → World → Prop)
    (isDir : w.fs.get (locate fpath) = some .dir)
    (start : I ((w.fs.children (locate fpath)).filter scandirFilter) w)
    (turn : ∀ statbuf x rest w', I (x :: rest) w' →
      (skinningEntry lib junk (skinningDir lib junk n) fpath spath statbuf x).wp
        (fun _ w'' => I rest w'') E w') :
    (skinningDir lib junk (n + 1) fpath spath).wp (fun _ w' => I [] w') E w := by
  simp only [skinningDir, Command.wp_bind, wp_scandir, isDir_iff.mpr isDir, if_true,
    Command.wp_pure]
  exact Command.wp_fold (fun _ rest w' => I rest w') turn start

theorem skinningDir_missing {n : Nat} {Q : Unit → World → Prop}
    (noDir : w.fs.get (locate fpath) ≠ some .dir) (done : Q () w) :
    (skinningDir lib junk (n + 1) fpath spath).wp Q E w := by
  have failed : w.fs.isDir (locate fpath) = false := by
    rw [← Bool.not_eq_true, isDir_iff]
    exact noDir
  simp only [skinningDir, Command.wp_bind, wp_scandir, failed]
  exact done

end Rules

end OslabProfiler.CompKernel

import OslabProfiler.CompKernel.Comparison

/-! # Comparing two versions with their original

`skin` is run on the three directories, `molt` on the skins of the two versions
against that of the original, and `ssu_diff` on the molts. Every program writes
to a place of its own where nothing was, so the directories and the earlier
results stay as they were, and the reports can be told in terms of the three
directories alone.
-/

namespace OslabProfiler.CompKernel

open Lib Lib.FileTree

/-- Nothing has changed but at or below the places `done`. -/
def Kept (w₀ w : World) (done : List Bytes) : Prop :=
  ∀ q, (∀ dst ∈ done, ¬ locate dst <+: q) → w.fs.get q = w₀.fs.get q

namespace Kept

variable {w₀ w w' : World} {done : List Bytes}

theorem one {dst : Bytes} (frame : ∀ q, ¬ locate dst <+: q → w.fs.get q = w₀.fs.get q) :
    Kept w₀ w [dst] := fun q outside => frame q (outside dst List.mem_cons_self)

theorem trans (kept : Kept w₀ w done) {more : List Bytes} (further : Kept w w' more) :
    Kept w₀ w' (done ++ more) := by
  intro q outside
  rw [further q fun dst member => outside dst (List.mem_append_right done member),
    kept q fun dst member => outside dst (List.mem_append_left more member)]

theorem below (kept : Kept w₀ w done) {path : Bytes}
    (apart : ∀ dst ∈ done, Apart (locate dst) (locate path)) (p : List Name) :
    w.fs.get (locate path ++ p) = w₀.fs.get (locate path ++ p) :=
  kept _ fun dst member => (apart dst member).outside p

theorem source (kept : Kept w₀ w done) {path : Bytes} (source : Source w₀.fs path)
    (apart : ∀ dst ∈ done, Apart (locate dst) (locate path)) : Source w.fs path where
  root := by
    have same := kept.below apart []
    rw [List.append_nil] at same
    rw [same, source.root]
  plain p e present := source.plain p e (kept.below apart p ▸ present)

theorem fresh (kept : Kept w₀ w done) {path : Bytes} (fresh : FreshPlace w₀.fs path)
    (apart : ∀ dst ∈ done, Apart (locate dst) (locate path)) : FreshPlace w.fs path where
  missing := by
    have same := kept.below apart []
    rw [List.append_nil] at same
    rw [same, fresh.missing]
  parent := by
    obtain ⟨d, x, place, above⟩ := fresh.parent
    refine ⟨d, x, place, ?_⟩
    rw [kept d, above]
    intro dst member inside
    apply (apart dst member).1
    rw [place]
    exact inside.trans (List.prefix_append d [x])

end Kept

theorem skin_stage {lib : Md5} {w w' : World} {fpath spath : Bytes} (source : Source w.fs fpath)
    (fresh : FreshPlace w.fs spath) (apart : Apart (locate spath) (locate fpath))
    (run : ∃ junk, (skin lib junk fpath spath).Ends w () w') :
    Skinned lib w.fs w'.fs fpath spath ∧ Kept w w' [spath] := by
  obtain ⟨junk, ended⟩ := run
  obtain ⟨skinned, frame⟩ := skin_skinned source fresh apart.2 ended
  exact ⟨skinned, Kept.one frame⟩

theorem molt_stage (s : Molting) {w w' : World} (start : w.fs = s.fs)
    (fresh : FreshPlace s.fs s.mPath)
    (run : ∃ junk, (molt junk s.oPath s.cPath s.mPath).Ends w () w') :
    MoltFits s.fs s.oPath s.cPath s.cmp s.mPath ∧
      (∀ p, w'.fs.get (locate s.mPath ++ p) = s.want p) ∧ Kept w w' [s.mPath] := by
  obtain ⟨junk, ended⟩ := run
  obtain ⟨fits, tree, frame⟩ := Command.wp_ends (molt_fresh_wp s junk start fresh) ended
  refine ⟨fits, tree, Kept.one fun q outside => ?_⟩
  rw [frame q outside, start]

/-- The five runs before `ssu_diff`, from the world `w₀` on. -/
structure Pipeline (lib : Md5) (org v1 v2 so s1 s2 m1 m2 : Bytes)
    (w₀ w₁ w₂ w₃ w₄ w₅ : World) : Prop where
  sourceO : Source w₀.fs org
  source1 : Source w₀.fs v1
  source2 : Source w₀.fs v2
  /-- Paths given to a program hold no NUL. -/
  string1 : 0 ∉ v1
  string2 : 0 ∉ v2
  fresh : ∀ dst ∈ [so, s1, s2, m1, m2], FreshPlace w₀.fs dst
  apart : [so, s1, s2, m1, m2].Pairwise fun a b => Apart (locate a) (locate b)
  outside : ∀ src ∈ [org, v1, v2], ∀ dst ∈ [so, s1, s2, m1, m2], ¬ locate src <+: locate dst
  skinO : ∃ junk, (skin lib junk org so).Ends w₀ () w₁
  skin1 : ∃ junk, (skin lib junk v1 s1).Ends w₁ () w₂
  skin2 : ∃ junk, (skin lib junk v2 s2).Ends w₂ () w₃
  molt1 : ∃ junk, (molt junk so s1 m1).Ends w₃ () w₄
  molt2 : ∃ junk, (molt junk so s2 m2).Ends w₄ () w₅

/-- A molt, seen from a tree in which its two directories are as they were. -/
theorem Molting.molted (s : Molting) {fs : Fs}
    (tree : ∀ p, fs.get (locate s.mPath ++ p) = s.want p)
    (sameOrg : ∀ p, fs.get (locate s.org ++ p) = s.old.get (locate s.org ++ p))
    (sameCmp : ∀ p, fs.get (locate s.cmp ++ p) = s.fs.get (locate s.cmp ++ p)) :
    Molted s.lib fs s.org s.cmp s.mPath := by
  have differs : ∀ p, Differs s.lib fs s.org s.cmp p ↔ s.Changed p := by
    intro p
    rw [Molting.changed_iff, Differs, sameOrg, sameCmp]
  have exact_ := moltExact_of_tree s tree
  constructor
  · have root := tree []
    rw [List.append_nil] at root
    rw [root, Molting.want_root]
  · intro p changed
    rw [exact_.content p ((differs p).mp changed), sameCmp]
  · intro p data isFile
    exact (differs p).mpr ((exact_.file p).mp ⟨data, isFile⟩)
  · intro p nonempty isDir
    obtain ⟨q, below, changed⟩ := exact_.dir p nonempty isDir
    exact ⟨q, below, (differs _).mpr changed⟩
  · exact exact_.plain

/-- What `skin` and `molt` have formatted, `ssu_diff` can format again. -/
theorem Molting.pathsFit (s : Molting) {fs : Fs}
    (tree : ∀ p, fs.get (locate s.mPath ++ p) = s.want p)
    (fits : MoltFits s.fs s.oPath s.cPath s.cmp s.mPath) : PathsFit fs s.org s.cPath s.mPath := by
  intro p nonempty present
  rw [tree, Molting.want, moltTree] at present
  obtain ⟨q, changed⟩ : ∃ q, s.Changed (p ++ q) := by
    split at present
    · rename_i own
      exact ⟨[], by rwa [List.append_nil]⟩
    · split at present
      · rename_i above
        exact above.resolve_left nonempty
      · exact (present rfl).elim
  have inO : s.fs.get (locate s.oPath ++ p) ≠ none :=
    s.fs.present_above _ q (by rw [List.append_assoc]; exact changed.common.1)
  have inC : s.fs.get (locate s.cPath ++ p) ≠ none :=
    s.fs.present_above _ q (by rw [List.append_assoc]; exact changed.common.2)
  obtain ⟨clean, inOrg⟩ := s.skinO.clean inO
  exact ⟨(fits p nonempty inO inC).1, s.skinC.short nonempty inC,
    (s.skinO.fits p nonempty clean inOrg).1⟩

namespace Pipeline

variable {lib : Md5} {org v1 v2 so s1 s2 m1 m2 : Bytes} {w₀ w₁ w₂ w₃ w₄ w₅ : World}
  (pipe : Pipeline lib org v1 v2 so s1 s2 m1 m2 w₀ w₁ w₂ w₃ w₄ w₅)

include pipe

theorem apart_source (src : Bytes) (isSource : src ∈ [org, v1, v2]) :
    ∀ dst ∈ [so, s1, s2, m1, m2], Apart (locate dst) (locate src) := by
  intro dst member
  have root : w₀.fs.get (locate src) ≠ none := by
    simp only [List.mem_cons, List.not_mem_nil, or_false] at isSource
    rcases isSource with rfl | rfl | rfl
    · simp [pipe.sourceO.root]
    · simp [pipe.source1.root]
    · simp [pipe.source2.root]
  exact ⟨(pipe.fresh dst member).not_above root, pipe.outside src isSource dst member⟩

/-- What the five runs leave: the directories as they were, the skins of the two
    versions, and their molts, with paths that fit. -/
theorem stages : Kept w₀ w₅ [so, s1, s2, m1, m2] ∧
    Skinned lib w₅.fs w₅.fs v1 s1 ∧ Skinned lib w₅.fs w₅.fs v2 s2 ∧
    (Molted lib w₅.fs org v1 m1 ∧ PathsFit w₅.fs org s1 m1) ∧
    Molted lib w₅.fs org v2 m2 ∧ PathsFit w₅.fs org s2 m2 := by
  have apartO := pipe.apart_source org (by simp)
  have apart1 := pipe.apart_source v1 (by simp)
  have apart2 := pipe.apart_source v2 (by simp)
  have fresh := pipe.fresh
  have apart := pipe.apart
  simp only [List.forall_mem_cons, List.pairwise_cons, List.not_mem_nil, false_implies,
    implies_true, and_true, List.Pairwise.nil] at apartO apart1 apart2 fresh apart
  obtain ⟨⟨so_s1, so_s2, so_m1, so_m2⟩, ⟨s1_s2, s1_m1, s1_m2⟩, ⟨s2_m1, s2_m2⟩, m1_m2⟩ := apart
  obtain ⟨freshSo, freshS1, freshS2, freshM1, freshM2⟩ := fresh
  -- the three skins
  obtain ⟨skinO, kept₁⟩ := skin_stage pipe.sourceO freshSo apartO.1 pipe.skinO
  obtain ⟨skin1, step₂⟩ := skin_stage (kept₁.source pipe.source1 (by simp [apart1]))
    (kept₁.fresh freshS1 (by simp [so_s1])) apart1.2.1 pipe.skin1
  have kept₂ := kept₁.trans step₂
  obtain ⟨skin2, step₃⟩ := skin_stage (kept₂.source pipe.source2 (by simp [apart2]))
    (kept₂.fresh freshS2 (by simp [so_s2, s1_s2])) apart2.2.2.1 pipe.skin2
  have kept₃ := kept₂.trans step₃
  have skinO₃ := skinO.kept ((step₂.trans step₃).below (by simp [so_s1.symm, so_s2.symm]))
  have skin1₃ := (skin1.kept (step₃.below (by simp [s1_s2.symm]))).current
    ((step₂.trans step₃).below (by simp [apart1]))
  have skin2₃ := skin2.current (step₃.below (by simp [apart2]))
  -- the two molts
  have freshM1₃ := kept₃.fresh freshM1 (by simp [so_m1, s1_m1, s2_m1])
  obtain ⟨fits1, tree1, step₄⟩ := molt_stage (Molting.ofFresh skinO₃ skin1₃ pipe.string1 freshM1₃
    so_m1.1 s1_m1.1) rfl freshM1₃ pipe.molt1
  have kept₄ := kept₃.trans step₄
  have skinO₄ := skinO₃.kept (step₄.below (by simp [Molting.ofFresh, so_m1.symm]))
  have skin2₄ := (skin2₃.kept (step₄.below (by simp [Molting.ofFresh, s2_m1.symm]))).current
    (step₄.below (by simp [Molting.ofFresh, apart2]))
  have freshM2₄ := kept₄.fresh freshM2 (by simp [Molting.ofFresh, so_m2, s1_m2, s2_m2, m1_m2])
  obtain ⟨fits2, tree2, step₅⟩ := molt_stage (Molting.ofFresh skinO₄ skin2₄ pipe.string2 freshM2₄
    so_m2.1 s2_m2.1) rfl freshM2₄ pipe.molt2
  have kept₅ := kept₄.trans step₅
  have tree1₅ := fun p =>
    (step₅.below (by simp [Molting.ofFresh, m1_m2.symm]) p).trans (tree1 p)
  refine ⟨kept₅, ?_, ?_, ⟨?_, Molting.pathsFit _ tree1₅ fits1⟩, ?_, Molting.pathsFit _ tree2 fits2⟩
  · exact (skin1₃.kept ((step₄.trans step₅).below
      (by simp [Molting.ofFresh, s1_m1.symm, s1_m2.symm]))).current
      ((step₄.trans step₅).below (by simp [Molting.ofFresh, apart1]))
  · exact (skin2₄.kept (step₅.below (by simp [Molting.ofFresh, s2_m2.symm]))).current
      (step₅.below (by simp [Molting.ofFresh, apart2]))
  · apply Molting.molted (Molting.ofFresh skinO₃ skin1₃ pipe.string1 freshM1₃ so_m1.1 s1_m1.1)
      tree1₅
    · exact kept₅.below (by simp [Molting.ofFresh, apartO])
    · exact (step₄.trans step₅).below (by simp [Molting.ofFresh, apart1])
  · apply Molting.molted (Molting.ofFresh skinO₄ skin2₄ pipe.string2 freshM2₄ so_m2.1 s2_m2.1) tree2
    · exact kept₅.below (by simp [Molting.ofFresh, apartO])
    · exact step₅.below (by simp [Molting.ofFresh, apart2])

omit pipe in
/-- The system that `ssu_diff` finds. -/
def comparing (pipe : Pipeline lib org v1 v2 so s1 s2 m1 m2 w₀ w₁ w₂ w₃ w₄ w₅) : Comparing where
  lib := lib
  fs := w₅.fs
  org := org
  v1 := v1
  v2 := v2
  s1 := s1
  s2 := s2
  m1 := m1
  m2 := m2
  skin1 := pipe.stages.2.1
  skin2 := pipe.stages.2.2.1
  molt1 := pipe.stages.2.2.2.1.1
  molt2 := pipe.stages.2.2.2.2.1

theorem org_kept (p : List Name) : w₅.fs.get (locate org ++ p) = w₀.fs.get (locate org ++ p) :=
  pipe.stages.1.below (pipe.apart_source org (by simp)) p

theorem v1_kept (p : List Name) : w₅.fs.get (locate v1 ++ p) = w₀.fs.get (locate v1 ++ p) :=
  pipe.stages.1.below (pipe.apart_source v1 (by simp)) p

theorem v2_kept (p : List Name) : w₅.fs.get (locate v2 ++ p) = w₀.fs.get (locate v2 ++ p) :=
  pipe.stages.1.below (pipe.apart_source v2 (by simp)) p

/-- The run of `ssu_diff` reports what is expected of the two molts. -/
theorem outcome (junk : Junk) : (ssuDiff junk org m1 m2 s1 s2).wp
    (fun _ w₆ => ∃ ps, pipe.comparing.Adds [] ps w₅ w₆ ∧ pipe.comparing.Complete [] ps)
    (fun _ w₆ => pipe.comparing.Stopped [] w₅ w₆) w₅ := by
  have root1 := pipe.comparing.molt1.root
  have root2 := pipe.comparing.molt2.root
  rw [← List.append_nil (locate _)] at root1 root2
  exact Comparing.compDir_wp junk BUFMAX [] w₅ rfl root1 root2
    ⟨by decide, Nat.le_add_right BUFMAX _⟩

end Pipeline

/-- The reports that a run has added. -/
def reports (w w' : World) : List Report := w'.out.drop w.out.length

theorem Comparing.Adds.reports {c : Comparing} {l : List Name} {ps : List (List Name)}
    {w w' : World} (adds : c.Adds l ps w w') : reports w w' = ps.map c.reportOf := by
  rw [CompKernel.reports, adds.out, List.drop_left]

/-- The two operands are those of the path `p`. -/
def Belongs (org m1 m2 : Bytes) (p : List Name) (r : Report) : Prop :=
  (r.left = extend m1 p ∨ r.left = extend org p) ∧ (r.right = extend m2 p ∨ r.right = extend org p)

theorem belongs_reportOf (c : Comparing) (p : List Name) :
    Belongs c.org c.m1 c.m2 p (c.reportOf p) := by
  constructor
  · by_cases diff : c.Diff1 p
    · exact .inl (Comparing.reportOf_left diff)
    · exact .inr (Comparing.reportOf_left_org diff)
  · by_cases diff : c.Diff2 p
    · exact .inl (Comparing.reportOf_right diff)
    · exact .inr (Comparing.reportOf_right_org diff)

/-- Operands belong to one path only. -/
theorem Belongs.unique {org m1 m2 : Bytes} {p q : List Name} {r : Report}
    (apart : Apart (locate m2) (locate org)) (hp : Belongs org m1 m2 p r)
    (hq : Belongs org m1 m2 q r) : p = q := by
  have cancel : ∀ path : Bytes, extend path p = extend path q → p = q := by
    intro path same
    have located := congrArg locate same
    rw [locate_extend, locate_extend] at located
    exact List.append_cancel_left located
  have other : ∀ p q : List Name, extend m2 p ≠ extend org q := by
    intro p q same
    have located := congrArg locate same
    rw [locate_extend, locate_extend] at located
    exact apart.outside q ⟨p, located⟩
  cases hp.2 with
  | inl moltP =>
      cases hq.2 with
      | inl moltQ => exact cancel m2 (moltP.symm.trans moltQ)
      | inr orgQ => exact (other p q (moltP.symm.trans orgQ)).elim
  | inr orgP =>
      cases hq.2 with
      | inl moltQ => exact (other q p (moltQ.symm.trans orgP)).elim
      | inr orgQ => exact cancel org (orgP.symm.trans orgQ)

/-- For a file of all three directories, the operands have the digests of the
    two versions, and these differ. -/
def SoundAt (lib : Md5) (trees : Fs) (org v1 v2 : Bytes) (fs : Fs) (p : List Name) (r : Report) :
    Prop :=
  ∀ o a b, trees.get (locate org ++ p) = some (.file o) →
    trees.get (locate v1 ++ p) = some (.file a) → trees.get (locate v2 ++ p) = some (.file b) →
    ∃ left right, fs.get (locate r.left) = some (.file left) ∧
      fs.get (locate r.right) = some (.file right) ∧ lib.digest left = lib.digest a ∧
      lib.digest right = lib.digest b ∧ lib.digest a ≠ lib.digest b

theorem differs_iff {lib : Md5} {fs : Fs} {org v : Bytes} {p : List Name} {o a : Bytes}
    (clean : p.all scandirFilter = true) (inOrg : fs.get (locate org ++ p) = some (.file o))
    (inV : fs.get (locate v ++ p) = some (.file a)) :
    Differs lib fs org v p ↔ lib.digest o ≠ lib.digest a := by
  simp only [Differs, clean, inOrg, inV, Option.some.injEq, Entry.file.injEq, true_and]
  constructor
  · rintro ⟨o', a', sameO, sameA, differ⟩
    rwa [sameO, sameA]
  · intro differ
    exact ⟨o, a, rfl, rfl, differ⟩

/-- A molt stands in for its version: the copy, or the original with the same
    digest. -/
theorem Molted.stands_in {lib : Md5} {fs : Fs} {org v m : Bytes} (molted : Molted lib fs org v m)
    {p : List Name} {o a : Bytes} (clean : p.all scandirFilter = true)
    (inOrg : fs.get (locate org ++ p) = some (.file o))
    (inV : fs.get (locate v ++ p) = some (.file a)) {operand : Bytes}
    (copy : Differs lib fs org v p → operand = extend m p)
    (original : ¬ Differs lib fs org v p → operand = extend org p) :
    ∃ data, fs.get (locate operand) = some (.file data) ∧ lib.digest data = lib.digest a := by
  by_cases differs : Differs lib fs org v p
  · refine ⟨a, ?_, rfl⟩
    rw [copy differs, locate_extend, molted.file p differs, inV]
  · refine ⟨o, ?_, ?_⟩
    · rw [original differs, locate_extend, inOrg]
    · rw [differs_iff clean inOrg inV] at differs
      exact not_not.mp differs

theorem Comparing.Expected.soundAt {c : Comparing} {p : List Name} (expected : c.Expected p) :
    SoundAt c.lib c.fs c.org c.v1 c.v2 c.fs p (c.reportOf p) := by
  intro o a b inOrg in1 in2
  have clean : p.all scandirFilter = true := by
    cases expected.differs with
    | inl diff => exact diff.1
    | inr diff => exact diff.1
  obtain ⟨left, atLeft, digestLeft⟩ := c.molt1.stands_in clean inOrg in1
    (fun h => reportOf_left h) (fun h => reportOf_left_org h)
  obtain ⟨right, atRight, digestRight⟩ := c.molt2.stands_in clean inOrg in2
    (fun h => reportOf_right h) (fun h => reportOf_right_org h)
  refine ⟨left, right, atLeft, atRight, digestLeft, digestRight, ?_⟩
  have iff1 : c.Diff1 p ↔ _ := differs_iff clean inOrg in1
  have iff2 : c.Diff2 p ↔ _ := differs_iff clean inOrg in2
  rcases expected with both | alone | alone
  · obtain ⟨_, _, a', b', isA, isB, differ⟩ := both
    rw [in1] at isA
    rw [in2] at isB
    cases isA
    cases isB
    exact differ
  · have changed := iff1.mp alone.1
    have same := not_not.mp (mt iff2.mpr alone.2.1)
    exact fun equal => changed (same.trans equal.symm)
  · have changed := iff2.mp alone.1
    have same := not_not.mp (mt iff1.mpr alone.2.1)
    exact fun equal => changed (same.trans equal)

/-! The directories `/o`, `/a` and `/b`, their skins `/p`, `/q` and `/r`, and the
molts `/s` and `/t`. -/

def nameA : Name := sameByte 97 1 (by decide)

def nameB : Name := sameByte 98 1 (by decide)

def nameQ : Name := sameByte 113 1 (by decide)

def nameR : Name := sameByte 114 1 (by decide)

def nameT : Name := sameByte 116 1 (by decide)

/-- One file `f` in each of the three directories. -/
def threeTrees (o a b : Bytes) : World :=
  ⟨planted [([nameO, nameF], o), ([nameA, nameF], a), ([nameB, nameF], b)], []⟩

def skinnedO (w : World) : World := skinWorld (child [] nameO) (child [] nameP) w

def skinned1 (w : World) : World := skinWorld (child [] nameA) (child [] nameQ) (skinnedO w)

def skinned2 (w : World) : World := skinWorld (child [] nameB) (child [] nameR) (skinned1 w)

def molted1 (w : World) : World :=
  moltWorld (child [] nameP) (child [] nameQ) (child [] nameS) (skinned2 w)

def molted2 (w : World) : World :=
  moltWorld (child [] nameP) (child [] nameR) (child [] nameT) (molted1 w)

theorem pipeline_sample (w : World) (plain : allPlain w.fs = true)
    (dirs : ∀ x ∈ [nameO, nameA, nameB], w.fs.isDir [x] = true)
    (free : ∀ x ∈ [nameP, nameQ, nameR, nameS, nameT], w.fs.get [x] = none)
    (okO : (skin plainMd5 zeroJunk (child [] nameO) (child [] nameP) w).1 = .ok ())
    (ok1 : (skin plainMd5 zeroJunk (child [] nameA) (child [] nameQ) (skinnedO w)).1 = .ok ())
    (ok2 : (skin plainMd5 zeroJunk (child [] nameB) (child [] nameR) (skinned1 w)).1 = .ok ())
    (okM1 : (molt zeroJunk (child [] nameP) (child [] nameQ) (child [] nameS)
      (skinned2 w)).1 = .ok ())
    (okM2 : (molt zeroJunk (child [] nameP) (child [] nameR) (child [] nameT)
      (molted1 w)).1 = .ok ()) :
    Pipeline plainMd5 (child [] nameO) (child [] nameA) (child [] nameB) (child [] nameP)
      (child [] nameQ) (child [] nameR) (child [] nameS) (child [] nameT)
      w (skinnedO w) (skinned1 w) (skinned2 w) (molted1 w) (molted2 w) := by
  have located : ∀ x, locate (child [] x) = [x] := fun x => locate_child [] x
  have fresh : ∀ x, w.fs.get [x] = none → FreshPlace w.fs (child [] x) := by
    intro x missing
    exact ⟨by rw [located, missing], [], x, located x, w.fs.root⟩
  have source : ∀ x, w.fs.isDir [x] = true → Source w.fs (child [] x) := by
    intro x isDir
    exact .of_allPlain (by rw [located, isDir]) plain
  simp only [List.forall_mem_cons, List.not_mem_nil, false_implies, implies_true,
    and_true] at dirs free
  constructor
  · exact source _ dirs.1
  · exact source _ dirs.2.1
  · exact source _ dirs.2.2
  · decide
  · decide
  · simp only [List.forall_mem_cons, List.not_mem_nil, false_implies, implies_true, and_true]
    exact ⟨fresh _ free.1, fresh _ free.2.1, fresh _ free.2.2.1, fresh _ free.2.2.2.1,
      fresh _ free.2.2.2.2⟩
  · unfold Apart
    decide
  · decide
  · exact skinWorld_ends okO
  · exact skinWorld_ends ok1
  · exact skinWorld_ends ok2
  · exact ⟨zeroJunk, Command.ends_of_ok okM1⟩
  · exact ⟨zeroJunk, Command.ends_of_ok okM2⟩

/-- The file differs from the original in both versions. -/
theorem pipeline_bothChanged :
    Pipeline plainMd5 (child [] nameO) (child [] nameA) (child [] nameB) (child [] nameP)
      (child [] nameQ) (child [] nameR) (child [] nameS) (child [] nameT)
      (threeTrees [] [1] [2]) (skinnedO (threeTrees [] [1] [2])) (skinned1 (threeTrees [] [1] [2]))
      (skinned2 (threeTrees [] [1] [2])) (molted1 (threeTrees [] [1] [2]))
      (molted2 (threeTrees [] [1] [2])) :=
  pipeline_sample _ (by decide +kernel) (by decide +kernel) (by decide +kernel)
    (by decide +kernel) (by decide +kernel) (by decide +kernel) (by decide +kernel)
    (by decide +kernel)

/-- Whatever `ssu_diff` reports, however its run comes out, belongs to one path,
    no path is reported twice, and the operands have the digests of the versions. -/
theorem ssuDiff_reports_sound (lib : Md5) (junk : Junk) (org v1 v2 so s1 s2 m1 m2 : Bytes)
    (w₀ w₁ w₂ w₃ w₄ w₅ : World)
    (pipe : Pipeline lib org v1 v2 so s1 s2 m1 m2 w₀ w₁ w₂ w₃ w₄ w₅) :
    ∃ ps : List (List Name), ps.Nodup ∧
      List.Forall₂ (fun p r => Belongs org m1 m2 p r ∧ (∀ q, Belongs org m1 m2 q r → q = p) ∧
          SoundAt lib w₀.fs org v1 v2 w₅.fs p r)
        ps (reports w₅ (ssuDiff junk org m1 m2 s1 s2 w₅).2) := by
  obtain ⟨ps, adds⟩ : ∃ ps, pipe.comparing.Adds [] ps w₅ (ssuDiff junk org m1 m2 s1 s2 w₅).2 :=
    Command.wp_final (Command.wp_mono (pipe.outcome junk)
      (fun _ _ done => done.imp fun _ h => h.1) (fun _ _ stopped => stopped.1))
  have apart := pipe.apart_source org (by simp) m2 (by simp)
  refine ⟨ps, adds.nodup, ?_⟩
  rw [adds.reports, List.forall₂_map_right_iff, List.forall₂_same]
  intro p member
  have belongs := belongs_reportOf pipe.comparing p
  refine ⟨belongs, fun q other => other.unique apart belongs, fun o a b inOrg in1 in2 => ?_⟩
  apply (adds.expected p member).1.soundAt o a b
  · exact (pipe.org_kept p).trans inOrg
  · exact (pipe.v1_kept p).trans in1
  · exact (pipe.v2_kept p).trans in2

theorem ssuDiff_sound_bothChanged :
    ∃ ps : List (List Name), ps.Nodup ∧
      List.Forall₂ (fun p r => Belongs (child [] nameO) (child [] nameS) (child [] nameT) p r ∧
          (∀ q, Belongs (child [] nameO) (child [] nameS) (child [] nameT) q r → q = p) ∧
          SoundAt plainMd5 (threeTrees [] [1] [2]).fs (child [] nameO) (child [] nameA)
            (child [] nameB) (molted2 (threeTrees [] [1] [2])).fs p r)
        ps (reports (molted2 (threeTrees [] [1] [2]))
          (ssuDiff zeroJunk (child [] nameO) (child [] nameS) (child [] nameT) (child [] nameQ)
            (child [] nameR) (molted2 (threeTrees [] [1] [2]))).2) :=
  ssuDiff_reports_sound plainMd5 zeroJunk (child [] nameO) (child [] nameA) (child [] nameB)
    (child [] nameP) (child [] nameQ) (child [] nameR) (child [] nameS) (child [] nameT)
    _ _ _ _ _ _ pipeline_bothChanged

/-- Behind the last name of `p`, in the same directory, there is another name on
    the way to a file in which `v` differs. -/
def LaterDiffers (lib : Md5) (fs : Fs) (org v : Bytes) (p : List Name) : Prop :=
  ∃ d x y q, p = d ++ [x] ∧ x < y ∧ Differs lib fs org v (d ++ y :: q)

theorem later_iff {c : Comparing} {v m : Bytes} (molted : Molted c.lib c.fs c.org v m)
    {p : List Name} : c.Later m p ↔ LaterDiffers c.lib c.fs c.org v p := by
  have present : ∀ d y, c.fs.get (locate m ++ (d ++ [y])) ≠ none ↔
      ∃ q, Differs c.lib c.fs c.org v (d ++ y :: q) := by
    intro d y
    rw [molted.present_iff (by simp)]
    simp only [List.append_assoc, List.singleton_append]
  constructor
  · rintro ⟨d, x, y, same, less, there⟩
    obtain ⟨q, differs⟩ := (present d y).mp there
    exact ⟨d, x, y, q, same, less, differs⟩
  · rintro ⟨d, x, y, q, same, less, differs⟩
    exact ⟨d, x, y, same, less, (present d y).mpr ⟨q, differs⟩⟩

/-- The files that a comparison is to show, told by the three directories: those that differ
    from the original in both versions and between them, and those that differ from it in one
    version while the other one differs in a later name of the same directory. -/
def Reported (lib : Md5) (fs : Fs) (org v1 v2 : Bytes) (p : List Name) : Prop :=
  (Differs lib fs org v1 p ∧ Differs lib fs org v2 p ∧
    ∃ a b, fs.get (locate v1 ++ p) = some (.file a) ∧ fs.get (locate v2 ++ p) = some (.file b) ∧
      lib.digest a ≠ lib.digest b) ∨
  (Differs lib fs org v1 p ∧ ¬ Differs lib fs org v2 p ∧ LaterDiffers lib fs org v2 p) ∨
  (Differs lib fs org v2 p ∧ ¬ Differs lib fs org v1 p ∧ LaterDiffers lib fs org v1 p)

theorem Reported.org_file {lib : Md5} {fs : Fs} {org v1 v2 : Bytes} {p : List Name}
    (reported : Reported lib fs org v1 v2 p) : ∃ a, fs.get (locate org ++ p) = some (.file a) := by
  rcases reported with both | first | second
  · exact both.1.org_file
  · exact first.1.org_file
  · exact second.1.org_file

/-- Below a file that is reported nothing is reported. -/
theorem Reported.not_below {lib : Md5} {fs : Fs} {org v1 v2 : Bytes} {p q : List Name}
    (upper : Reported lib fs org v1 v2 p) (lower : Reported lib fs org v1 v2 (p ++ q)) :
    q = [] := by
  obtain ⟨a, isFile⟩ := upper.org_file
  obtain ⟨b, there⟩ := lower.org_file
  by_contra below
  rw [← List.append_assoc, fs.nothing_below (by simp [isFile]) q below] at there
  cases there

theorem expected_iff (c : Comparing) (p : List Name) :
    c.Expected p ↔ Reported c.lib c.fs c.org c.v1 c.v2 p := by
  rw [Comparing.Expected, later_iff c.molt1, later_iff c.molt2]
  exact Iff.rfl

section Congr

variable {lib : Md5} {fs fs' : Fs} {org v v1 v2 : Bytes}
  (sameO : ∀ p, fs'.get (locate org ++ p) = fs.get (locate org ++ p))

include sameO

theorem differs_congr (sameV : ∀ p, fs'.get (locate v ++ p) = fs.get (locate v ++ p)) :
    Differs lib fs' org v = Differs lib fs org v := by
  funext p
  rw [Differs, Differs, sameO, sameV]

variable (same1 : ∀ p, fs'.get (locate v1 ++ p) = fs.get (locate v1 ++ p))
  (same2 : ∀ p, fs'.get (locate v2 ++ p) = fs.get (locate v2 ++ p))

include same1 same2

theorem reported_congr (p : List Name) :
    Reported lib fs' org v1 v2 p ↔ Reported lib fs org v1 v2 p := by
  simp only [Reported, LaterDiffers, differs_congr sameO same1, differs_congr sameO same2, same1,
    same2]

theorem reportFor_congr (m1 m2 : Bytes) (p : List Name) :
    reportFor lib fs' org v1 v2 m1 m2 p = reportFor lib fs org v1 v2 m1 m2 p := by
  rw [reportFor, reportFor, differs_congr sameO same1, differs_congr sameO same2]

end Congr

/-- Every line `diff A B` for a file that is to be shown fits. -/
def LinesFit (lib : Md5) (fs : Fs) (org v1 v2 m1 m2 : Bytes) : Prop :=
  ∀ p, Reported lib fs org v1 v2 p → (reportFor lib fs org v1 v2 m1 m2 p).Fits

section Run

variable {lib : Md5} {org v1 v2 so s1 s2 m1 m2 : Bytes} {w₀ w₁ w₂ w₃ w₄ w₅ : World}
  (pipe : Pipeline lib org v1 v2 so s1 s2 m1 m2 w₀ w₁ w₂ w₃ w₄ w₅)

include pipe

theorem expected_iff_reported (p : List Name) :
    pipe.comparing.Expected p ↔ Reported lib w₀.fs org v1 v2 p :=
  (expected_iff pipe.comparing p).trans
    (reported_congr pipe.org_kept pipe.v1_kept pipe.v2_kept p)

/-- Only the lines with two operands can be too long after the runs before. -/
theorem Pipeline.room (fits : LinesFit lib w₀.fs org v1 v2 m1 m2) : pipe.comparing.Room where
  paths1 := pipe.stages.2.2.2.1.2
  paths2 := pipe.stages.2.2.2.2.2
  lines p expected := by
    have line := fits p ((expected_iff_reported pipe p).mp expected)
    rwa [← reportFor_congr pipe.org_kept pipe.v1_kept pipe.v2_kept] at line

theorem Pipeline.ends (junk : Junk) (fits : LinesFit lib w₀.fs org v1 v2 m1 m2) :
    ∃ w₆, (ssuDiff junk org m1 m2 s1 s2).Ends w₅ () w₆ ∧
      ∃ ps, pipe.comparing.Adds [] ps w₅ w₆ ∧ pipe.comparing.Complete [] ps := by
  obtain ⟨_, w₆, ended, done⟩ :=
    Command.ends_of_unstopped (pipe.outcome junk) fun _ _ stopped => stopped.2 (pipe.room fits)
  exact ⟨w₆, ended, done⟩

/-- The reports of a run that has come to its end are those of the expected paths. -/
theorem reported_iff_expected {w₆ : World} {ps : List (List Name)}
    (adds : pipe.comparing.Adds [] ps w₅ w₆) (complete : pipe.comparing.Complete [] ps)
    (p : List Name) :
    (∃ r ∈ reports w₅ w₆, Belongs org m1 m2 p r) ↔ pipe.comparing.Expected p := by
  have apart := pipe.apart_source org (by simp) m2 (by simp)
  rw [adds.reports]
  constructor
  · rintro ⟨r, member, belongs⟩
    obtain ⟨q, inPs, rfl⟩ := List.mem_map.mp member
    rw [belongs.unique apart (belongs_reportOf pipe.comparing q)]
    exact (adds.expected q inPs).1
  · intro expected
    exact ⟨_, List.mem_map_of_mem (complete p expected (List.nil_prefix)),
      belongs_reportOf pipe.comparing p⟩

end Run

/-- For a file whose digests differ between the versions, what is to be shown. -/
theorem reported_of_apart {lib : Md5} {fs : Fs} {org v1 v2 : Bytes} {p : List Name} {a b : Bytes}
    (in1 : fs.get (locate v1 ++ p) = some (.file a))
    (in2 : fs.get (locate v2 ++ p) = some (.file b)) (differ : lib.digest a ≠ lib.digest b) :
    Reported lib fs org v1 v2 p ↔
      (Differs lib fs org v1 p ∧ Differs lib fs org v2 p) ∨
      (Differs lib fs org v1 p ∧ LaterDiffers lib fs org v2 p) ∨
      (Differs lib fs org v2 p ∧ LaterDiffers lib fs org v1 p) := by
  constructor
  · intro reported
    rcases reported with both | left | right
    · exact .inl ⟨both.1, both.2.1⟩
    · exact .inr (.inl ⟨left.1, left.2.2⟩)
    · exact .inr (.inr ⟨right.1, right.2.2⟩)
  · intro condition
    -- a file that differs in both is shown whatever comes later
    have both : Differs lib fs org v1 p → Differs lib fs org v2 p →
        Reported lib fs org v1 v2 p :=
      fun diff1 diff2 => .inl ⟨diff1, diff2, a, b, in1, in2, differ⟩
    rcases condition with common | left | right
    · exact both common.1 common.2
    · by_cases diff2 : Differs lib fs org v2 p
      · exact both left.1 diff2
      · exact .inr (.inl ⟨left.1, diff2, left.2⟩)
    · by_cases diff1 : Differs lib fs org v1 p
      · exact both diff1 right.1
      · exact .inr (.inr ⟨right.1, diff1, right.2⟩)

/-- If the lines fit, the run comes to its end, and a file whose digests differ between the
    versions is reported exactly when it differs from the original in both, or when it differs
    in one and the molt of the other still has a later name in the same directory. -/
theorem ssuDiff_reports_iff (lib : Md5) (junk : Junk) (org v1 v2 so s1 s2 m1 m2 : Bytes)
    (w₀ w₁ w₂ w₃ w₄ w₅ : World)
    (pipe : Pipeline lib org v1 v2 so s1 s2 m1 m2 w₀ w₁ w₂ w₃ w₄ w₅)
    (fits : LinesFit lib w₀.fs org v1 v2 m1 m2) :
    ∃ w₆, (ssuDiff junk org m1 m2 s1 s2).Ends w₅ () w₆ ∧
      ∀ p a b, w₀.fs.get (locate v1 ++ p) = some (.file a) →
        w₀.fs.get (locate v2 ++ p) = some (.file b) → lib.digest a ≠ lib.digest b →
        ((∃ r ∈ reports w₅ w₆, Belongs org m1 m2 p r) ↔
          (Differs lib w₀.fs org v1 p ∧ Differs lib w₀.fs org v2 p) ∨
          (Differs lib w₀.fs org v1 p ∧ LaterDiffers lib w₀.fs org v2 p) ∨
          (Differs lib w₀.fs org v2 p ∧ LaterDiffers lib w₀.fs org v1 p)) := by
  obtain ⟨w₆, ended, ps, adds, complete⟩ := pipe.ends junk fits
  refine ⟨w₆, ended, fun p a b in1 in2 differ => ?_⟩
  rw [reported_iff_expected pipe adds complete, expected_iff_reported pipe]
  exact reported_of_apart in1 in2 differ

/-- Lines fit where the paths are short. -/
theorem linesFit_of_short {lib : Md5} {fs : Fs} {org v1 v2 m1 m2 : Bytes}
    (short : ∀ l ∈ fs.support, (l.map fun x => x.bytes.length + 1).sum ≤ 1000)
    (shortPaths : ∀ path ∈ [org, m1, m2], path.length ≤ 1000) :
    LinesFit lib fs org v1 v2 m1 m2 := by
  intro p reported
  obtain ⟨a, isFile⟩ := reported.org_file
  have bound := short _ (fs.listed _ (by rw [isFile]; simp))
  rw [List.map_append, List.sum_append] at bound
  have each : ∀ path ∈ [org, m1, m2], (extend path p).length ≤ 2000 := by
    intro path member
    have own := shortPaths path member
    have length := length_extend path p
    omega
  have left : (reportFor lib fs org v1 v2 m1 m2 p).left.length ≤ 2000 := by
    simp only [reportFor]
    split <;> exact each _ (by simp)
  have right : (reportFor lib fs org v1 v2 m1 m2 p).right.length ≤ 2000 := by
    simp only [reportFor]
    split <;> exact each _ (by simp)
  have fixed : (ascii "diff ").length = 5 ∧ (ascii " ").length = 1 := by decide
  rw [Report.Fits, List.length_append, List.length_append, List.length_append, fixed.1, fixed.2,
    BUFMAX]
  omega

theorem ssuDiff_reports_bothChanged :
    LinesFit plainMd5 (threeTrees [] [1] [2]).fs (child [] nameO) (child [] nameA)
      (child [] nameB) (child [] nameS) (child [] nameT) ∧
    ∃ w₆, (ssuDiff zeroJunk (child [] nameO) (child [] nameS) (child [] nameT) (child [] nameQ)
        (child [] nameR)).Ends (molted2 (threeTrees [] [1] [2])) () w₆ ∧
      ∃ r ∈ reports (molted2 (threeTrees [] [1] [2])) w₆,
        Belongs (child [] nameO) (child [] nameS) (child [] nameT) [nameF] r := by
  have fits : LinesFit plainMd5 (threeTrees [] [1] [2]).fs (child [] nameO) (child [] nameA)
      (child [] nameB) (child [] nameS) (child [] nameT) :=
    linesFit_of_short (by decide +kernel) (by decide)
  obtain ⟨w₆, ended, reported⟩ := ssuDiff_reports_iff plainMd5 zeroJunk (child [] nameO)
    (child [] nameA) (child [] nameB) (child [] nameP) (child [] nameQ) (child [] nameR)
    (child [] nameS) (child [] nameT) _ _ _ _ _ _ pipeline_bothChanged fits
  refine ⟨fits, w₆, ended, ?_⟩
  rw [reported [nameF] [1] [2] (by decide +kernel) (by decide +kernel) (by decide)]
  exact .inl ⟨⟨by decide, [], [1], by decide +kernel⟩, ⟨by decide, [], [2], by decide +kernel⟩⟩

/-- A file that only the first version has changed: the second molt is empty, and
    the walk over the two molts ends before it begins. -/
theorem ssuDiff_misses_change :
    Pipeline plainMd5 (child [] nameO) (child [] nameA) (child [] nameB) (child [] nameP)
      (child [] nameQ) (child [] nameR) (child [] nameS) (child [] nameT)
      (threeTrees [] [1] []) (skinnedO (threeTrees [] [1] [])) (skinned1 (threeTrees [] [1] []))
      (skinned2 (threeTrees [] [1] [])) (molted1 (threeTrees [] [1] []))
      (molted2 (threeTrees [] [1] [])) ∧
    (threeTrees [] [1] []).fs.get (locate (child [] nameO) ++ [nameF]) = some (.file []) ∧
    (threeTrees [] [1] []).fs.get (locate (child [] nameA) ++ [nameF]) = some (.file [1]) ∧
    (threeTrees [] [1] []).fs.get (locate (child [] nameB) ++ [nameF]) = some (.file []) ∧
    plainMd5.digest [1] ≠ plainMd5.digest [] ∧
    (ssuDiff zeroJunk (child [] nameO) (child [] nameS) (child [] nameT) (child [] nameQ)
      (child [] nameR) (molted2 (threeTrees [] [1] []))).1 = .ok () ∧
    reports (molted2 (threeTrees [] [1] []))
      (ssuDiff zeroJunk (child [] nameO) (child [] nameS) (child [] nameT) (child [] nameQ)
        (child [] nameR) (molted2 (threeTrees [] [1] []))).2 = [] := by
  refine ⟨pipeline_sample _ ?_ ?_ ?_ ?_ ?_ ?_ ?_ ?_, ?_, ?_, ?_, ?_, ?_, ?_⟩
  all_goals decide +kernel

end OslabProfiler.CompKernel

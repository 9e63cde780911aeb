import OslabProfiler.CompKernel.DiffDir

/-! # Exchanging the two versions

The walk over the molts of two versions, and the walk with the versions exchanged,
go through the same names in the same order and report the same pairs with their
sides exchanged. The two runs are followed side by side. What unset locals hold in
one run says nothing about the other, so every value that decides a branch has to
come from the trees.
-/

namespace OslabProfiler.CompKernel

open Lib Lib.FileTree

def Report.swap (r : Report) : Report := ⟨r.right, r.left⟩

/-- The molt `m` of a version as the walk expects it: what is in it is also in the
    original, as a directory or as a file, and each of its files has a digest in the
    skin. -/
structure Covered (fs : Fs) (o m s : Bytes) : Prop where
  noLinks : ∀ p, fs.get (locate m ++ p) ≠ some .dangling
  inOrg : ∀ p, fs.get (locate m ++ p) ≠ none →
    statOf (fs.get (locate o ++ p)) = statOf (fs.get (locate m ++ p))
  inSkin : ∀ p, statOf (fs.get (locate m ++ p)) = some false →
    ∃ data, fs.get (locate s ++ p) = some (.file data) ∧ HASHLEN ≤ data.length

namespace Covered

variable {fs : Fs} {o m s : Bytes} (covered : Covered fs o m s)

include covered

theorem below (x : Name) : Covered fs (child o x) (child m x) (child s x) where
  noLinks p := by
    rw [locate_child, List.append_assoc]
    exact covered.noLinks ([x] ++ p)
  inOrg p := by
    rw [locate_child, locate_child, List.append_assoc, List.append_assoc]
    exact covered.inOrg ([x] ++ p)
  inSkin p := by
    rw [locate_child, locate_child, List.append_assoc, List.append_assoc]
    exact covered.inSkin ([x] ++ p)

/-- `stat` finds what the molt lists, and the same in the original. -/
theorem statted {x : Name} (present : fs.get (locate m ++ [x]) ≠ none) :
    ∃ isDir, statOf (fs.get (locate (child m x))) = some isDir ∧
      statOf (fs.get (locate (child o x))) = some isDir := by
  rw [locate_child, locate_child, covered.inOrg [x] present]
  cases entry : fs.get (locate m ++ [x]) with
  | none => exact (present entry).elim
  | some e =>
      cases e with
      | file data => exact ⟨false, rfl, rfl⟩
      | dir => exact ⟨true, rfl, rfl⟩
      | locked => exact ⟨false, rfl, rfl⟩
      | dangling => exact (covered.noLinks [x] entry).elim

end Covered

/-- `Covered`, checked on the entries of a tree. -/
def isCovered (fs : Fs) (o m s : Bytes) : Bool :=
  fs.support.all fun l =>
    let p := l.drop (locate m).length
    l ≠ locate m ++ p ||
      (fs.get (locate m ++ p) ≠ some .dangling &&
        statOf (fs.get (locate o ++ p)) = statOf (fs.get (locate m ++ p)) &&
        (statOf (fs.get (locate m ++ p)) ≠ some false ||
          match fs.get (locate s ++ p) with
          | some (.file data) => HASHLEN ≤ data.length
          | _ => false))

theorem Covered.of_isCovered {fs : Fs} {o m s : Bytes} (check : isCovered fs o m s = true) :
    Covered fs o m s := by
  have entry : ∀ p, fs.get (locate m ++ p) ≠ none →
      fs.get (locate m ++ p) ≠ some .dangling ∧
        statOf (fs.get (locate o ++ p)) = statOf (fs.get (locate m ++ p)) ∧
        (statOf (fs.get (locate m ++ p)) = some false →
          ∃ data, fs.get (locate s ++ p) = some (.file data) ∧ HASHLEN ≤ data.length) := by
    intro p present
    have checked := List.all_eq_true.mp check _ (fs.listed _ present)
    simp only [List.drop_left, ne_eq, not_true, decide_false, Bool.false_or, Bool.and_eq_true,
      decide_eq_true_eq, Bool.or_eq_true] at checked
    refine ⟨checked.1.1, checked.1.2, fun isFile => ?_⟩
    have skin := checked.2.resolve_left (not_not.mpr isFile)
    split at skin
    case h_1 data file => exact ⟨data, file, of_decide_eq_true skin⟩
    case h_2 => cases skin
  constructor
  · intro p link
    exact (entry p (by simp [link])).1 link
  · intro p present
    exact (entry p present).2.1
  · intro p isFile
    refine (entry p fun absent => ?_).2.2 isFile
    rw [absent] at isFile
    cases isFile

/-! ## The two runs -/

theorem strcmp_comm (a b : Bytes) : strcmp b a = -strcmp a b := by
  induction a generalizing b with
  | nil => cases b <;> simp [strcmp]
  | cons x a ih =>
      cases b with
      | nil => simp [strcmp]
      | cons y b =>
          simp only [strcmp]
          by_cases same : x = y
          · rw [if_pos same, if_pos same.symm, ih]
          · rw [if_neg same, if_neg (Ne.symm same)]
            omega

/-- Both runs work on the tree `fs`; what they have reported since they started are
    the same pairs with their sides exchanged. -/
structure Mirrored (fs : Fs) (base : List Report) (w w' : World) : Prop where
  left : w.fs = fs
  right : w'.fs = fs
  out : ∃ rs, w.out = base ++ rs ∧ w'.out = base ++ rs.map Report.swap

/-- Two values that are known. -/
def Known {α : Type} (a b x y : α) : Prop := x = a ∧ y = b

abbrev Alike {α : Type} (_ _ : α) : Prop := True

section Paired

variable {fs : Fs} {base : List Report}

theorem paired_sprintf {S : World → World → Prop} {a b : Bytes}
    (same : a.length < BUFMAX ↔ b.length < BUFMAX) :
    Command.Paired S (Known a b) (sprintf a) (sprintf b) :=
  Command.paired_ite same (fun _ => Command.paired_pure ⟨rfl, rfl⟩)
    (fun _ => Command.paired_stop _)

theorem sprintf_bind {α : Type} (a : Bytes) (f : Bytes → Prog α) :
    (sprintf a >>= f) = if a.length < BUFMAX then f a else Command.stop .overflow := by
  unfold sprintf
  split <;> rfl

/-- Two texts are formatted in one order here and in the other order there. -/
theorem paired_sprintf_swap {α β : Type} {S : World → World → Prop} {V : α → β → Prop}
    {a b : Bytes} {f : Bytes → Bytes → Prog α} {g : Bytes → Bytes → Prog β}
    (next : Command.Paired S V (f a b) (g b a)) :
    Command.Paired S V (sprintf a >>= fun x => sprintf b >>= fun y => f x y)
      (sprintf b >>= fun y => sprintf a >>= fun x => g y x) := by
  simp only [sprintf_bind]
  by_cases fitsA : a.length < BUFMAX
  · by_cases fitsB : b.length < BUFMAX
    · simpa only [if_pos fitsA, if_pos fitsB] using next
    · simpa only [if_pos fitsA, if_neg fitsB] using Command.paired_stop _
  · by_cases fitsB : b.length < BUFMAX
    · simpa only [if_neg fitsA, if_pos fitsB] using Command.paired_stop _
    · simpa only [if_neg fitsA, if_neg fitsB] using Command.paired_stop _

theorem paired_stat {p q : Bytes} {a b old old' : Bool}
    (foundP : statOf (fs.get (locate p)) = some a) (foundQ : statOf (fs.get (locate q)) = some b) :
    Command.Paired (Mirrored fs base) (Known a b) (stat p old) (stat q old') := by
  apply Command.paired_read
  intro w w' mirrored
  rw [mirrored.left, mirrored.right, foundP, foundQ]
  exact ⟨rfl, rfl⟩

theorem paired_report (left right : Bytes) :
    Command.Paired (Mirrored fs base) Alike (report left right) (report right left) := by
  apply Command.paired_bind
  · apply paired_sprintf
    simp only [List.length_append]
    omega
  · rintro _ _ _
    apply Command.paired_update trivial
    rintro w w' ⟨fsLeft, fsRight, rs, out, out'⟩
    exact ⟨fsLeft, fsRight, rs ++ [⟨left, right⟩], by simp [out], by simp [out', Report.swap]⟩

theorem paired_diffDir (junk junk' : Junk) (path1 path2 : Bytes) (flag flag' : Bool) :
    Command.Paired (Mirrored fs base) Alike (diffDir junk BUFMAX path1 path2 flag)
      (diffDir junk' BUFMAX path2 path1 flag') := by
  intro w w' mirrored
  rw [diffDir_ends junk path1 path2 flag w, diffDir_ends junk' path2 path1 flag' w']
  exact ⟨mirrored, trivial⟩

theorem readHash_run (junk : Junk) {path data : Bytes} {w : World}
    (file : w.fs.get (locate path) = some (.file data)) :
    readHash junk path w = (.ok (readInto data (junk.hash path) HASHLEN), w) := by
  simp only [readHash, contents, bind, Command.read, file]
  rfl

/-- Digests that were read from the skins. -/
def Digests (a b x y : Bytes) : Prop := cutHash x = cutHash a ∧ cutHash y = cutHash b

theorem paired_readHash (junk junk' : Junk) {p q a b : Bytes}
    (fileP : fs.get (locate p) = some (.file a)) (longA : HASHLEN ≤ a.length)
    (fileQ : fs.get (locate q) = some (.file b)) (longB : HASHLEN ≤ b.length) :
    Command.Paired (Mirrored fs base) (Digests a b) (readHash junk p) (readHash junk' q) := by
  intro w w' mirrored
  rw [readHash_run junk (by rw [mirrored.left]; exact fileP),
    readHash_run junk' (by rw [mirrored.right]; exact fileQ)]
  exact ⟨mirrored, cutHash_readInto longA _, cutHash_readInto longB _⟩

theorem paired_diffFile (junk junk' : Junk) (m1 m2 : Bytes) {s1 s2 data1 data2 : Bytes}
    (skin1 : fs.get (locate s1) = some (.file data1)) (long1 : HASHLEN ≤ data1.length)
    (skin2 : fs.get (locate s2) = some (.file data2)) (long2 : HASHLEN ≤ data2.length) :
    Command.Paired (Mirrored fs base) Alike (diffFile junk m1 m2 s1 s2)
      (diffFile junk' m2 m1 s2 s1) := by
  refine Command.paired_bind (paired_readHash junk junk' skin1 long1 skin2 long2) ?_
  rintro x y ⟨ofX, ofY⟩
  refine Command.paired_bind (paired_readHash junk junk' skin2 long2 skin1 long1) ?_
  rintro x' y' ⟨ofX', ofY'⟩
  apply Command.paired_ite
  · rw [ofX, ofY, ofX', ofY', strcmp_comm, ne_eq, ne_eq, neg_eq_zero]
  · intro _
    exact paired_report m1 m2
  · intro _
    exact Command.paired_pure trivial

/-- One turn of the two walks, on the names `x` and `y` here and `y` and `x` there. -/
theorem paired_compStep (junk junk' : Junk) {o m1 m2 s1 s2 : Bytes}
    (covered1 : Covered fs o m1 s1) (covered2 : Covered fs o m2 s2)
    {recur recur' : Bytes → Bytes → Bytes → Bytes → Bytes → Prog Unit}
    (deeper : ∀ x, Command.Paired (Mirrored fs base) Alike
      (recur (child o x) (child m1 x) (child m2 x) (child s1 x) (child s2 x))
      (recur' (child o x) (child m2 x) (child m1 x) (child s2 x) (child s1 x)))
    {x y : Name} (in1 : fs.get (locate m1 ++ [x]) ≠ none) (in2 : fs.get (locate m2 ++ [y]) ≠ none)
    (stats stats' : Bool × Bool) :
    Command.Paired (Mirrored fs base) Alike
      (compStep junk recur o m1 m2 s1 s2 stats (x, y))
      (compStep junk' recur' o m2 m1 s2 s1 stats' (y, x)) := by
  obtain ⟨isDir1, found1, org1⟩ := covered1.statted in1
  obtain ⟨isDir2, found2, org2⟩ := covered2.statted in2
  have done : ∀ a b : Bool × Bool,
      Command.Paired (Mirrored fs base) Alike (pure a : Prog _) (pure b) :=
    fun _ _ => Command.paired_pure trivial
  refine paired_sprintf_swap (paired_sprintf_swap ?_)
  refine Command.paired_bind (paired_stat found1 found2) ?_
  rintro _ _ ⟨rfl, rfl⟩
  refine Command.paired_bind (paired_stat found2 found1) ?_
  rintro _ _ ⟨rfl, rfl⟩
  simp only [strcmp_comm x.bytes y.bytes, neg_eq_zero, Left.neg_neg_iff]
  rcases lt_trichotomy (strcmp x.bytes y.bytes) 0 with less | equal | greater
  · -- The name `x` is only in `m1`: it is the smaller one here and the larger one there.
    rw [if_neg less.ne, if_neg less.ne, if_pos less, if_neg less.not_gt]
    refine Command.paired_bind (paired_sprintf Iff.rfl) ?_
    rintro _ _ ⟨rfl, rfl⟩
    refine Command.paired_bind (paired_stat org1 org1) ?_
    rintro _ _ ⟨rfl, rfl⟩
    apply Command.paired_ite and_comm
    · intro _
      exact Command.paired_bind (paired_diffDir junk junk' _ _ false true) fun _ _ _ => done _ _
    · intro _
      apply Command.paired_ite and_comm
      · intro _
        exact Command.paired_bind (paired_report _ _) fun _ _ _ => done _ _
      · intro _
        exact done _ _
  · have same : x = y := (strcmp_decides.eq x y).mp equal
    subst same
    rw [if_pos equal, if_pos equal]
    apply Command.paired_ite and_comm
    · intro _
      refine Command.paired_bind (paired_sprintf Iff.rfl) ?_
      rintro _ _ ⟨rfl, rfl⟩
      exact Command.paired_bind (deeper x) fun _ _ _ => done _ _
    · intro _
      apply Command.paired_ite and_comm
      · rintro ⟨rfl, rfl⟩
        rw [locate_child] at found1 found2
        obtain ⟨data1, skin1, long1⟩ := covered1.inSkin [x] found1
        obtain ⟨data2, skin2, long2⟩ := covered2.inSkin [x] found2
        rw [← locate_child] at skin1 skin2
        exact Command.paired_bind (paired_diffFile junk junk' _ _ skin1 long1 skin2 long2)
          fun _ _ _ => done _ _
      · intro _
        exact done _ _
  · rw [if_neg greater.ne', if_neg greater.ne', if_neg greater.not_gt, if_pos greater]
    refine Command.paired_bind (paired_sprintf Iff.rfl) ?_
    rintro _ _ ⟨rfl, rfl⟩
    refine Command.paired_bind (paired_stat org2 org2) ?_
    rintro _ _ ⟨rfl, rfl⟩
    apply Command.paired_ite and_comm
    · intro _
      exact Command.paired_bind (paired_diffDir junk junk' _ _ true false) fun _ _ _ => done _ _
    · intro _
      apply Command.paired_ite and_comm
      · intro _
        exact Command.paired_bind (paired_report _ _) fun _ _ _ => done _ _
      · intro _
        exact done _ _

/-- What `scandir` reads. -/
def listing (fs : Fs) (path : Bytes) : Option (List Name) :=
  if fs.isDir (locate path) then some ((fs.children (locate path)).filter scandirFilter) else none

theorem present_of_mem_listing {path : Bytes} {l : List Name} (listed : listing fs path = some l)
    {x : Name} (member : x ∈ l) : fs.get (locate path ++ [x]) ≠ none := by
  unfold listing at listed
  split at listed
  · rw [← Option.some.inj listed] at member
    exact mem_children.mp (List.mem_filter.mp member).1
  · cases listed

/-- `comp_dir` reads both directories before it looks at anything in them; the order
    does not matter. -/
theorem compDir_run (junk : Junk) (n : Nat) (o m1 m2 s1 s2 : Bytes) (w : World) :
    compDir junk (n + 1) o m1 m2 s1 s2 w =
      match listing w.fs m1, listing w.fs m2 with
      | some l1, some l2 =>
          (Command.fold (compStep junk (compDir junk n) o m1 m2 s1 s2)
            (junk.isDir m1, junk.isDir m2) (mergeNames l1 l2) >>= fun _ => pure ()) w
      | _, _ => (.ok (), w) := by
  have read : ∀ path, scandir path w = (.ok (listing w.fs path), w) := fun _ => rfl
  simp only [compDir, bind, read]
  cases listing w.fs m1 with
  | none => rfl
  | some l1 =>
      simp only [read]
      cases listing w.fs m2 <;> rfl

theorem paired_compDir (junk junk' : Junk) (n : Nat) {o m1 m2 s1 s2 : Bytes}
    (covered1 : Covered fs o m1 s1) (covered2 : Covered fs o m2 s2) :
    Command.Paired (Mirrored fs base) Alike (compDir junk n o m1 m2 s1 s2)
      (compDir junk' n o m2 m1 s2 s1) := by
  induction n generalizing o m1 m2 s1 s2 with
  | zero => exact Command.paired_stop _
  | succ n ih =>
      intro w w' mirrored
      rw [compDir_run, compDir_run, mirrored.left, mirrored.right]
      cases list1 : listing fs m1 with
      | none =>
          cases listing fs m2 with
          | none => exact ⟨mirrored, trivial⟩
          | some l2 => exact ⟨mirrored, trivial⟩
      | some l1 =>
          cases list2 : listing fs m2 with
          | none => exact ⟨mirrored, trivial⟩
          | some l2 =>
              -- The turns of the two walks are the same with the heads exchanged.
              have turns : List.Forall₂
                  (fun p q : Name × Name => q = p.swap ∧ p.1 ∈ l1 ∧ p.2 ∈ l2)
                  (mergeNames l1 l2) (mergeNames l2 l1) := by
                rw [mergeNames, mergeNames, MergeJoin.mergeSteps_swap strcmp_decides l1 l2,
                  List.forall₂_map_right_iff, List.forall₂_same]
                exact fun p member => ⟨rfl, MergeJoin.mergeSteps_mem strcmp_decides member⟩
              refine Command.paired_bind (Command.paired_fold ?_ turns (U := Alike) trivial)
                (fun _ _ _ => Command.paired_pure trivial) w w' mirrored
              rintro stats stats' ⟨x, y⟩ _ _ ⟨rfl, inX, inY⟩
              exact paired_compStep junk junk' covered1 covered2
                (fun z => ih (covered1.below z) (covered2.below z))
                (present_of_mem_listing list1 inX) (present_of_mem_listing list2 inY) stats stats'

end Paired

/-- Exchanging the two versions exchanges the sides of every reported pair, and the run
    comes out in the same way. -/
theorem compDir_swap (junk junk' : Junk) (n : Nat) (o m1 m2 s1 s2 : Bytes) (w : World)
    (covered1 : Covered w.fs o m1 s1) (covered2 : Covered w.fs o m2 s2) :
    (compDir junk' n o m2 m1 s2 s1 w).1 = (compDir junk n o m1 m2 s1 s2 w).1 ∧
    reports w (compDir junk' n o m2 m1 s2 s1 w).2 =
      (reports w (compDir junk n o m1 m2 s1 s2 w).2).map Report.swap := by
  have start : Mirrored w.fs w.out w w := ⟨rfl, rfl, [], by simp, by simp⟩
  obtain ⟨⟨_, _, rs, out, out'⟩, results⟩ := paired_compDir junk junk' n covered1 covered2 w w start
  constructor
  · revert results
    cases (compDir junk n o m1 m2 s1 s2 w).1 <;> cases (compDir junk' n o m2 m1 s2 s1 w).1 <;>
      intro results
    · exact congrArg _ results.symm
    · exact results.elim
    · exact results.elim
    · rfl
  · rw [reports, reports, out, out', List.drop_left, List.drop_left]

/-- The file `f` is in both molts, the file `d` only in the first one and the file `c`
    only in the second one. -/
def threeChanges : World :=
  ⟨planted [([nameO, nameC], []), ([nameO, nameD], []), ([nameO, nameF], []),
    ([nameA, nameD], [1]), ([nameA, nameF], [1]), ([nameB, nameC], [2]), ([nameB, nameF], [2]),
    ([nameQ, nameD], List.replicate 40 1), ([nameQ, nameF], List.replicate 40 1),
    ([nameR, nameC], List.replicate 40 2), ([nameR, nameF], List.replicate 40 2)], []⟩

theorem compDir_swap_threeChanges :
    reports threeChanges (compDir zeroJunk 2 (child [] nameO) (child [] nameB) (child [] nameA)
        (child [] nameR) (child [] nameQ) threeChanges).2 =
      (reports threeChanges (compDir zeroJunk 2 (child [] nameO) (child [] nameA)
        (child [] nameB) (child [] nameQ) (child [] nameR) threeChanges).2).map Report.swap :=
  (compDir_swap zeroJunk zeroJunk 2 (child [] nameO) (child [] nameA) (child [] nameB)
    (child [] nameQ) (child [] nameR) threeChanges (.of_isCovered (by decide +kernel))
    (.of_isCovered (by decide +kernel))).2

example : (reports threeChanges (compDir zeroJunk 2 (child [] nameO) (child [] nameA)
    (child [] nameB) (child [] nameQ) (child [] nameR) threeChanges).2).length = 3 := by
  decide +kernel

end OslabProfiler.CompKernel

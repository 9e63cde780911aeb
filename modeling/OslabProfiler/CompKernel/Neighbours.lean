import OslabProfiler.CompKernel.Footprint

/-! # The skin of an entry and its neighbours

Two runs of `skinning_dir` over two directories that have one entry in common. When that
entry is a directory or a file that can be read, both runs write the same for it. When
`stat` fails, the kind is the one of the entry listed before, or that of an unset buffer;
when `fopen` fails, the digest is what an unset buffer holds.
-/

namespace OslabProfiler.CompKernel

open Lib Lib.FileTree

/-- The texts formatted for every entry of a directory fit: its paths, and its record with
    the digest or with what the unset buffer holds. -/
def DirFits (junk : Junk) (fs : Fs) (fpath spath : Bytes) : Prop :=
  ∀ p e, p ≠ [] → p.all scandirFilter → fs.get (locate fpath ++ p) = some e →
    SkinFitsAt fs fpath spath p ∧
      (¬ e.IsPlain → (cString (junk.hash (extend fpath p)) ++ ascii "|" ++
        extend fpath p).length < BUFMAX)

/-- A run of `skinning_dir` over a directory that holds `e` under the name `x`, among anything
    else, into an empty directory that lies elsewhere. The depth that is left is enough for
    every path that fits its buffer. -/
structure SkinRun (lib : Md5) (x : Name) (e : Entry Bytes) where
  junk : Junk
  depth : Nat
  fpath : Bytes
  spath : Bytes
  before : World
  deep : 0 < depth ∧ BUFMAX ≤ depth + fpath.length
  listed : scandirFilter x = true
  holds : before.fs.get (locate fpath ++ [x]) = some e
  target : before.fs.get (locate spath) = some .dir
  bare : ∀ y, before.fs.get (locate spath ++ [y]) = none
  apart : Apart (locate fpath) (locate spath)
  fits : DirFits junk before.fs fpath spath

namespace SkinRun

variable {lib : Md5} {x : Name} {e : Entry Bytes}

def after (r : SkinRun lib x e) : World :=
  (skinningDir lib r.junk r.depth r.fpath r.spath r.before).2

/-- The run comes to its end. -/
def Ended (r : SkinRun lib x e) : Prop :=
  (skinningDir lib r.junk r.depth r.fpath r.spath).Ends r.before () r.after

/-- What the run has written for the entry. -/
def written (r : SkinRun lib x e) : Option (Entry Bytes) := r.after.fs.get (locate r.spath ++ [x])

/-- The same kind, and the same record up to the directory in it. -/
def Agree (r r' : SkinRun lib x e) : Prop :=
  (r.written = some .dir ∧ r'.written = some .dir) ∨
  ∃ hash, r.written = some (.file (hash ++ ascii "|" ++ child r.fpath x ++ [0])) ∧
    r'.written = some (.file (hash ++ ascii "|" ++ child r'.fpath x ++ [0]))

end SkinRun

/-- The entry is skinned whatever its neighbours are, and what is written for it depends
    neither on them nor on unset buffers. -/
def Independent (lib : Md5) (e : Entry Bytes) : Prop :=
  ∀ (x : Name) (r r' : SkinRun lib x e), r.Ended ∧ r'.Ended ∧ r.Agree r'

/-! ## The runs end -/

/-- `skinning_file` where the digest is not computed. -/
theorem skinningFile_unread (lib : Md5) (junk : Junk) {fpath spath : Bytes} {w : World}
    {d : List Name} {x : Name} (place : locate spath = d ++ [x])
    (unread : ∀ data, w.fs.get (locate fpath) ≠ some (.file data))
    (above : w.fs.get d = some .dir) (free : Entry.writable (w.fs.get (d ++ [x])) = true)
    (fits : (cString (junk.hash fpath) ++ ascii "|" ++ fpath).length < BUFMAX) :
    (skinningFile lib junk fpath spath).wp (fun _ _ => True) (fun _ _ => False) w := by
  obtain ⟨opened, hOpened⟩ : ∃ fs, w.fs.writeAt d x [] = some fs :=
    writeAt_isSome.mpr ⟨above, free⟩
  simp only [skinningFile, md5, Command.wp_bind, wp_contents_unread unread, Command.wp_pure,
    wp_openTrunc, place, FileTree.write, onLast_append, hOpened]
  refine ⟨fun fs _ => ?_, fun h => by cases h⟩
  simp only [if_true, Command.wp_bind, wp_sprintf, wp_writeAll]
  exact ⟨fun _ => trivial, fun large => large fits⟩

/-- The entries below an entry fit as well. -/
theorem DirFits.child {junk : Junk} {fs fs' : Fs} {fpath spath : Bytes} {x : Name}
    (fits : DirFits junk fs fpath spath) (listed : scandirFilter x = true)
    (same : ∀ p, fs'.get (locate fpath ++ p) = fs.get (locate fpath ++ p)) :
    DirFits junk fs' (child fpath x) (child spath x) := by
  intro p e _ clean present
  rw [locate_child, List.append_assoc, List.singleton_append, same] at present
  obtain ⟨⟨fitsF, fitsS, read⟩, unread⟩ := fits (x :: p) e (by simp) (by simp_all) present
  refine ⟨⟨fitsF, fitsS, fun data isFile => read data ?_⟩, unread⟩
  rwa [locate_child, List.append_assoc, List.singleton_append, same] at isFile

/-- One turn on a name whose place is free. -/
theorem skinningEntry_ends (lib : Md5) (junk : Junk) (recur : Bytes → Bytes → Prog Unit)
    (statbuf : Bool) {fpath spath : Bytes} {x : Name} {e : Entry Bytes} {w : World}
    (listed : scandirFilter x = true) (present : w.fs.get (locate fpath ++ [x]) = some e)
    (target : w.fs.get (locate spath) = some .dir)
    (free : w.fs.get (locate spath ++ [x]) = none) (fits : DirFits junk w.fs fpath spath)
    (deeper : (child fpath x).length < BUFMAX →
      (recur (child fpath x) (child spath x)).wp (fun _ _ => True) (fun _ _ => False)
        { w with fs := w.fs.mkdirAt (locate spath) x }) :
    (skinningEntry lib junk recur fpath spath statbuf x).wp (fun _ _ => True) (fun _ _ => False)
      w := by
  obtain ⟨⟨fitsF, fitsS, read⟩, unread⟩ := fits [x] e (by simp) (by simpa using listed) present
  refine skinningEntry_rule (fun large => large ⟨fitsF, fitsS⟩) (fun _ => deeper fitsF)
    (fun plain => ?_)
  have place : locate (child spath x) = locate spath ++ [x] := locate_child spath x
  have writable : Entry.writable (w.fs.get (locate spath ++ [x])) = true := by
    rw [free]
    rfl
  have found : w.fs.get (locate (child fpath x)) = some e := by rw [locate_child, present]
  cases e with
  | file data =>
      exact Command.wp_mono (skinningFile_wp lib junk place found target writable)
        (fun _ _ _ => trivial) (fun _ _ large => large (read data present))
  | dir =>
      rw [present] at plain
      cases plain
  | locked =>
      exact skinningFile_unread lib junk place (by rw [found]; simp) target writable (unread id)
  | dangling =>
      exact skinningFile_unread lib junk place (by rw [found]; simp) target writable (unread id)

/-- The names that are still to come, and their places are free. -/
structure Awaits (w : World) (fpath spath : Bytes) (rest : List Name) (w' : World) : Prop where
  nodup : rest.Nodup
  listed : ∀ x ∈ rest, scandirFilter x = true ∧ w.fs.get (locate fpath ++ [x]) ≠ none
  moved : Within (locate spath) w.fs w'.fs
  free : ∀ x ∈ rest, w'.fs.get (locate spath ++ [x]) = none

theorem Awaits.next {w w' w'' : World} {fpath spath : Bytes} {x : Name} {rest : List Name}
    (awaits : Awaits w fpath spath (x :: rest) w')
    (turn : Within (locate spath ++ [x]) w'.fs w''.fs) : Awaits w fpath spath rest w'' where
  nodup := awaits.nodup.of_cons
  listed y later := awaits.listed y (List.mem_cons_of_mem x later)
  moved := awaits.moved.trans (turn.widen (List.prefix_append _ _))
  free y later := by
    have other : x ≠ y := fun same => (List.nodup_cons.mp awaits.nodup).1 (same ▸ later)
    rw [turn.2 _ (by simpa using other), awaits.free y (List.mem_cons_of_mem x later)]

/-- A run into an empty directory elsewhere ends when all texts fit. The path grows by two
    bytes at least with every level, so the depth is enough. -/
theorem skinningDir_ends (lib : Md5) (junk : Junk) (n : Nat) {fpath spath : Bytes} {w : World}
    (deep : 0 < n ∧ BUFMAX ≤ n + fpath.length) (apart : Apart (locate fpath) (locate spath))
    (target : w.fs.get (locate spath) = some .dir)
    (bare : ∀ y, w.fs.get (locate spath ++ [y]) = none)
    (fits : DirFits junk w.fs fpath spath) :
    (skinningDir lib junk n fpath spath).wp (fun _ _ => True) (fun _ _ => False) w := by
  induction n generalizing fpath spath w with
  | zero => exact (Nat.lt_irrefl 0 deep.1).elim
  | succ n ih =>
      by_cases isDir : w.fs.get (locate fpath) = some .dir
      · have distinct : ((w.fs.children (locate fpath)).filter scandirFilter).Nodup :=
          ((children_increasing w.fs (locate fpath)).imp ne_of_lt).filter _
        refine Command.wp_mono (skinningDir_rule (Awaits w fpath spath) isDir
          ⟨distinct, fun x member => (Skinning.mem_scandir.mp member).symm, Within.refl _ _,
            fun x _ => bare x⟩ ?_) (fun _ _ _ => trivial) (fun _ _ h => h)
        intro statbuf x rest w' awaits
        obtain ⟨listed, present⟩ := awaits.listed x List.mem_cons_self
        have free := awaits.free x List.mem_cons_self
        have same := awaits.moved.kept apart
        have fits' : DirFits junk w'.fs fpath spath := by
          intro p e nonempty clean there
          obtain ⟨⟨fitsF, fitsS, read⟩, unread⟩ := fits p e nonempty clean (same p ▸ there)
          exact ⟨⟨fitsF, fitsS, fun data isFile => read data (same p ▸ isFile)⟩, unread⟩
        have target' := awaits.moved.1.dir target
        obtain ⟨e, there⟩ := Option.ne_none_iff_exists'.mp (same [x] ▸ present)
        have made := get_mkdirAt target' (x := x) (by simp [free])
        have ends := skinningEntry_ends lib junk (skinningDir lib junk n) statbuf listed there
          target' free fits' fun room => by
            have longer := length_child fpath x
            refine ih ⟨by omega, by omega⟩ (by simpa using apart.below [x] [x]) ?_ (fun y => ?_) ?_
            · rw [locate_child, made, if_pos rfl]
            · have nothing := w'.fs.nothing_below (d := locate spath ++ [x]) (by simp [free]) [y]
                (by simp)
              rw [locate_child, made, if_neg (by simp), nothing]
            · refine fits'.child listed fun p => ?_
              exact (mkdirAt_change w'.fs (locate spath) x).within.2 _ fun below =>
                apart.symm.outside p ((List.prefix_append _ _).trans below)
        have step := (skinningEntry_within lib junk (skinningDir_within lib junk n) fpath spath
          statbuf x).wp (s := w')
        exact Command.wp_mono (Command.wp_and step ends) (fun _ _ both => awaits.next both.1)
          (fun _ _ both => both.2)
      · exact skinningDir_missing isDir trivial

theorem SkinRun.ended {lib : Md5} {x : Name} {e : Entry Bytes} (r : SkinRun lib x e) :
    r.Ended := by
  obtain ⟨_, w, ends, _⟩ := Command.ends_of_wp
    (skinningDir_ends lib r.junk r.depth r.deep r.apart r.target r.bare r.fits)
  have final : r.after = w := congrArg Prod.snd ends
  rw [Ended, final]
  exact ends

/-! ## What is written for an entry -/

/-- The turn of an entry decides what is written for it: before that there is nothing, and
    no later turn touches it. -/
theorem skinningDir_writes (lib : Md5) (junk : Junk) (n : Nat) {fpath spath : Bytes} {x : Name}
    {w : World} {goal : Entry Bytes} (listed : scandirFilter x = true)
    (present : w.fs.get (locate fpath ++ [x]) ≠ none)
    (free : w.fs.get (locate spath ++ [x]) = none)
    (turn : ∀ statbuf (w' : World), Within (locate spath) w.fs w'.fs →
      w'.fs.get (locate spath ++ [x]) = none →
      (skinningEntry lib junk (skinningDir lib junk n) fpath spath statbuf x).wp
        (fun _ w'' => w''.fs.get (locate spath ++ [x]) = some goal) (fun _ _ => True) w') :
    (skinningDir lib junk (n + 1) fpath spath).wp
      (fun _ w' => w'.fs.get (locate spath ++ [x]) = some goal) (fun _ _ => True) w := by
  have isDir := w.fs.parent (locate fpath) x present
  have distinct : ((w.fs.children (locate fpath)).filter scandirFilter).Nodup :=
    ((children_increasing w.fs (locate fpath)).imp ne_of_lt).filter _
  refine Command.wp_mono (skinningDir_rule
    (fun rest w' => rest.Nodup ∧ Within (locate spath) w.fs w'.fs ∧
      w'.fs.get (locate spath ++ [x]) = if x ∈ rest then none else some goal)
    isDir ⟨distinct, Within.refl _ _, ?_⟩ ?_) ?_ (fun _ _ h => h)
  · rw [if_pos (Skinning.mem_scandir.mpr ⟨present, listed⟩), free]
  · rintro statbuf y rest w' ⟨nodup, moved, there⟩
    have step := (skinningEntry_within lib junk (skinningDir_within lib junk n) fpath spath
      statbuf y).wp (s := w')
    obtain ⟨fresh, others⟩ := List.nodup_cons.mp nodup
    by_cases here : y = x
    · subst here
      rw [if_pos List.mem_cons_self] at there
      refine Command.wp_mono (Command.wp_and step (turn statbuf w' moved there)) ?_
        (fun _ _ _ => trivial)
      rintro _ w'' ⟨within, done⟩
      exact ⟨others, moved.trans (within.widen (List.prefix_append _ _)),
        by rw [if_neg fresh, done]⟩
    · refine Command.wp_mono step ?_ (fun _ _ _ => trivial)
      intro _ w'' within
      refine ⟨others, moved.trans (within.widen (List.prefix_append _ _)), ?_⟩
      rw [within.2 _ (by simpa using here), there]
      simp [Ne.symm here]
  · rintro _ w' ⟨_, _, there⟩
    simpa using there

namespace SkinRun

variable {lib : Md5} {x : Name} {e : Entry Bytes}

theorem written_eq (r : SkinRun lib x e) {goal : Entry Bytes}
    (turn : ∀ n statbuf (w : World), Within (locate r.spath) r.before.fs w.fs →
      w.fs.get (locate r.spath ++ [x]) = none →
      (skinningEntry lib r.junk (skinningDir lib r.junk n) r.fpath r.spath statbuf x).wp
        (fun _ w' => w'.fs.get (locate r.spath ++ [x]) = some goal) (fun _ _ => True) w) :
    r.written = some goal := by
  have ended := r.ended
  rw [Ended] at ended
  cases depth : r.depth with
  | zero =>
      rw [depth] at ended
      cases ended
  | succ n =>
      rw [depth] at ended
      have done := skinningDir_writes lib r.junk n r.listed (by simp [r.holds]) (r.bare x) (turn n)
      have reached := Command.wp_ends done ended
      exact reached

theorem written_dir (r : SkinRun lib x .dir) : r.written = some .dir := by
  apply r.written_eq
  intro n statbuf w moved free
  have found : w.fs.get (locate r.fpath ++ [x]) = some .dir := by
    rw [moved.kept r.apart, r.holds]
  refine skinningEntry_rule (fun _ => trivial) (fun _ => ?_) (fun plain => ?_)
  · have made : (w.fs.mkdirAt (locate r.spath) x).get (locate r.spath ++ [x]) = some .dir :=
      mkdirAt_made (moved.1.dir r.target) (by simp [free])
    refine Command.wp_mono (skinningDir_within lib r.junk n _ _).wp ?_ (fun _ _ _ => trivial)
    intro _ w' deeper
    exact deeper.1.dir made
  · rw [found] at plain
    cases plain

theorem written_file {data : Bytes} (r : SkinRun lib x (.file data)) :
    r.written = some (.file (skinRecord lib (child r.fpath x) data)) := by
  apply r.written_eq
  intro n statbuf w moved free
  have found : w.fs.get (locate r.fpath ++ [x]) = some (.file data) := by
    rw [moved.kept r.apart, r.holds]
  refine skinningEntry_rule (fun _ => trivial) (fun isDir => ?_) (fun _ => ?_)
  · rw [found] at isDir
    cases isDir
  · refine Command.wp_mono (skinningFile_wp lib r.junk (locate_child r.spath x)
      (by rw [locate_child, found]) (moved.1.dir r.target) (by simp [free, Entry.writable])) ?_
      (fun _ _ _ => trivial)
    rintro _ w' ⟨_, sets⟩
    rw [sets, if_pos rfl]

end SkinRun

theorem independent_of_plain (lib : Md5) {e : Entry Bytes} (plain : e.IsPlain) :
    Independent lib e := by
  intro x r r'
  refine ⟨r.ended, r'.ended, ?_⟩
  cases e with
  | dir => exact .inl ⟨r.written_dir, r'.written_dir⟩
  | file data => exact .inr ⟨hex (lib.digest data).toList, r.written_file, r'.written_file⟩
  | locked => exact plain.elim
  | dangling => exact plain.elim

/-! ## Entries that are not plain -/

/-- An empty directory `/s` beside `/f`, which holds one entry. -/
def oneEntry (e : Entry Bytes) : Fs :=
  ((empty.mkdir [nameF]).mkdir [nameS]).put [nameF] nameF e (by decide) (by decide)

/-- Unset buffers that hold a string of at most 1000 bytes leave room. -/
theorem oneEntry_fits (e : Entry Bytes) {junk : Junk}
    (short : ∀ path, (cString (junk.hash path)).length ≤ 1000) :
    DirFits junk (oneEntry e) (child [] nameF) (child [] nameS) := by
  intro p e' nonempty _ present
  have shallow : ∀ l ∈ ((empty.mkdir [nameF]).mkdir [nameS] : Fs).support, l.length ≤ 1 := by
    decide +kernel
  have only : p = [nameF] := by
    by_contra other
    have place : locate (child [] nameF) ++ p = nameF :: p := rfl
    rw [place, oneEntry, get_put, if_neg (by simpa using other)] at present
    have low := shallow _ (FileTree.listed _ _ (by rw [present]; simp))
    simp [nonempty] at low
  subst only
  refine ⟨⟨by decide, by decide, fun _ _ => by decide⟩, fun _ => ?_⟩
  have unset := short (extend (child [] nameF) [nameF])
  have fixed : (ascii "|").length = 1 ∧ (extend (child [] nameF) [nameF]).length = 4 := by decide
  rw [List.length_append, List.length_append, fixed.1, fixed.2, BUFMAX]
  omega

/-- The run of `skinning_dir` over `/f` into `/s`. -/
def oneEntryRun (lib : Md5) (e : Entry Bytes) (junk : Junk)
    (short : ∀ path, (cString (junk.hash path)).length ≤ 1000) : SkinRun lib nameF e where
  junk := junk
  depth := BUFMAX
  fpath := child [] nameF
  spath := child [] nameS
  before := ⟨oneEntry e, []⟩
  deep := by decide
  listed := by decide
  holds := rfl
  target := rfl
  bare _ := rfl
  apart := by constructor <;> decide
  fits := oneEntry_fits e short

def isDirJunk : Junk := ⟨fun _ => true, fun _ => [], fun _ => []⟩

def hashJunk : Junk := ⟨fun _ => false, fun _ => [1], fun _ => []⟩

theorem not_independent_dangling (lib : Md5) : ¬ Independent lib .dangling := by
  intro independent
  let r := oneEntryRun lib .dangling isDirJunk fun _ => Nat.zero_le _
  let r' := oneEntryRun lib .dangling zeroJunk fun _ => Nat.zero_le _
  have asDir : r.written = some .dir := rfl
  have asFile : r'.written = some (.file (ascii "|/f/f" ++ [0])) := rfl
  rcases (independent nameF r r').2.2 with ⟨_, dir⟩ | ⟨hash, file, _⟩
  · cases asFile.symm.trans dir
  · cases asDir.symm.trans file

theorem not_independent_locked (lib : Md5) : ¬ Independent lib .locked := by
  intro independent
  let r := oneEntryRun lib .locked zeroJunk fun _ => Nat.zero_le _
  let r' := oneEntryRun lib .locked hashJunk fun _ => Nat.le_of_ble_eq_true rfl
  have unset : r.written = some (.file (ascii "|/f/f" ++ [0])) := rfl
  have other : r'.written = some (.file (1 :: ascii "|/f/f" ++ [0])) := rfl
  rcases (independent nameF r r').2.2 with ⟨dir, _⟩ | ⟨hash, file, file'⟩
  · cases unset.symm.trans dir
  · have same := unset.symm.trans (file.trans (file'.symm.trans other))
    revert same
    decide

/-- Where the texts of both directories fit, what is written for an entry is its own exactly
    when it is a directory or a file that can be read. -/
theorem independent_iff (lib : Md5) (e : Entry Bytes) : Independent lib e ↔ e.IsPlain := by
  constructor
  · intro independent
    cases e with
    | dir => trivial
    | file data => trivial
    | locked => exact not_independent_locked lib independent
    | dangling => exact not_independent_dangling lib independent
  · exact independent_of_plain lib

/-- A dangling link in `/f`, listed behind another entry. -/
def linkBehind (e : Entry Bytes) : Fs :=
  (oneEntry .dangling).put [nameF] (sameByte 101 1 (by decide)) e (by decide) (by decide)

/-- The same link, with the same unset buffers, is skinned as a directory behind a
    directory and as a file behind a file. -/
theorem link_skinned_as_neighbour :
    ¬ Independent plainMd5 .dangling ∧
    (∃ w, (skinningDir plainMd5 zeroJunk BUFMAX (child [] nameF) (child [] nameS)).Ends
      ⟨linkBehind .dir, []⟩ () w ∧ w.fs.get [nameS, nameF] = some .dir) ∧
    (∃ w, (skinningDir plainMd5 zeroJunk BUFMAX (child [] nameF) (child [] nameS)).Ends
      ⟨linkBehind (.file []), []⟩ () w ∧
      w.fs.get [nameS, nameF] = some (.file (ascii "|/f/f" ++ [0]))) :=
  ⟨not_independent_dangling plainMd5, ⟨_, rfl, rfl⟩, ⟨_, rfl, rfl⟩⟩

end OslabProfiler.CompKernel

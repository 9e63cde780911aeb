import OslabProfiler.CompKernel.Arguments

/-! # The names of a skin and of its molt

`molt` puts its result beside the skin it is given: it cuts the path at the last
underscore and the character before it, and appends `__molt`. `ssu_diff` goes back the same
way. Neither looks at what is cut off. For a path that ends in `__skin` the two derivations
are inverse to each other; for any other directory the cut is made at an underscore in some
other component, or there is no underscore and the NUL is written outside the buffer.
-/

namespace OslabProfiler.CompKernel

open Lib Lib.FileTree

/-- The path is the name of the skin of `base`, perhaps with a slash behind it. -/
def SkinForm (path base : Bytes) : Prop :=
  path = base ++ ascii "__skin" ∨ path = base ++ ascii "__skin/"

/-- `main` of ssu_diff.c, given the molt of `base` as the first or as the second one, reads
    the skin of `base` with it. -/
def ReadsSkin (base : Bytes) : Prop :=
  ∀ (w : World) (cwd : List Name) (org molt1 molt2 : Arg) (paths : DiffPathNames),
    (ssuDiffPaths cwd [org, molt1, molt2]).Ends w paths w →
    (absolute w.fs cwd molt1.bytes = base ++ ascii "__molt" → paths.skin1 = base ++ ascii "__skin") ∧
    (absolute w.fs cwd molt2.bytes = base ++ ascii "__molt" → paths.skin2 = base ++ ascii "__skin")

/-- `main` of molt.c stops with an error, or it was given the skin of some `base`, creates
    the molt of `base`, and `ssu_diff` finds the way back. -/
def NamesInverse (w : World) (cwd : List Name) (org cmp : Arg) : Prop :=
  (∃ status, (moltPaths cwd [org, cmp] w).1 = .error (.exit status)) ∨
  ∃ base, SkinForm (absolute w.fs cwd cmp.bytes) base ∧
    (∃ oPath cPath, (moltPaths cwd [org, cmp]).Ends w (oPath, cPath, base ++ ascii "__molt") w) ∧
    (deriveName (ascii "__skin") (base ++ ascii "__molt")).Ends w (base ++ ascii "__skin") w ∧
    ReadsSkin base

/-! ## The cut -/

theorem cutName_append (base rest : Bytes) (last : underscore ∉ rest) :
    cutName (base ++ underscore :: underscore :: rest) = pure base := by
  have found := strrchr_append (base ++ [underscore]) last
  rw [List.append_assoc, List.singleton_append, List.length_append] at found
  rw [cutName, found]
  simp

theorem cutName_molt (base : Bytes) : cutName (base ++ ascii "__molt") = pure base :=
  cutName_append base (ascii "molt") (by decide)

theorem SkinForm.cutName {path base : Bytes} (form : SkinForm path base) :
    cutName path = pure base := by
  cases form with
  | inl bare =>
      rw [bare]
      exact cutName_append base (ascii "skin") (by decide)
  | inr slashed =>
      rw [slashed]
      exact cutName_append base (ascii "skin/") (by decide)

theorem SkinForm.room {path base : Bytes} (form : SkinForm path base)
    (fits : path.length < BUFMAX) (suffix : Bytes) (six : suffix.length = 6) :
    (base ++ suffix).length < BUFMAX := by
  have longer : base.length + 6 ≤ path.length := by
    cases form with
    | inl bare => rw [bare, List.length_append]; exact le_rfl
    | inr slashed => rw [slashed, List.length_append]; exact Nat.le_succ _
  rw [List.length_append, six]
  omega

section Rules

variable {cwd : List Name} {w : World} {E : Stop → World → Prop}

theorem wp_deriveName {suffix path base : Bytes} (cut : cutName path = pure base)
    {Q : Bytes → World → Prop} :
    (deriveName suffix path).wp Q E w ↔
      ((base ++ suffix).length < BUFMAX → Q (base ++ suffix) w) ∧
      (¬ (base ++ suffix).length < BUFMAX → E .overflow w) := by
  simp [deriveName, cut]

/-- Whatever is cut, only the name is computed, and it stands where the cut was made. -/
theorem deriveName_wp (suffix path : Bytes) :
    (deriveName suffix path).wp
      (fun name w' => w' = w ∧ ∀ base, cutName path = pure base → name = base ++ suffix)
      (fun stop _ => stop = .overflow) w := by
  cases found : strrchr underscore path with
  | none => simp [deriveName, cutName, found]
  | some i =>
      cases i with
      | zero => simp [deriveName, cutName, found]
      | succ i =>
          have cut : cutName path = pure (path.take i) := by rw [cutName, found]
          rw [wp_deriveName cut]
          refine ⟨fun _ => ⟨rfl, ?_⟩, fun _ => rfl⟩
          intro base same
          have ran := congrFun (cut.symm.trans same) w
          cases ran
          rfl

theorem ssuDiffPaths_wp (org molt1 molt2 : Arg) :
    (ssuDiffPaths cwd [org, molt1, molt2]).wp
      (fun paths _ => ∀ base,
        (cutName (absolute w.fs cwd molt1.bytes) = pure base →
          paths.skin1 = base ++ ascii "__skin") ∧
        (cutName (absolute w.fs cwd molt2.bytes) = pure base →
          paths.skin2 = base ++ ascii "__skin"))
      (fun _ _ => True) w := by
  simp only [ssuDiffPaths, Command.wp_bind, wp_checkDirs, wp_makeAbsolute, implies_true, and_true]
  intro _ _ _ _
  refine Command.wp_mono (deriveName_wp _ _) ?_ (fun _ _ _ => trivial)
  rintro skin1 _ ⟨rfl, first⟩
  refine Command.wp_mono (deriveName_wp _ _) ?_ (fun _ _ _ => trivial)
  rintro skin2 _ ⟨rfl, second⟩
  simp only [Command.wp_bind, Command.wp_read, Command.wp_ite, Command.wp_pure, exit,
    Command.wp_stop, implies_true, and_true]
  exact fun _ _ base => ⟨first base, second base⟩

end Rules

theorem readsSkin (base : Bytes) : ReadsSkin base := by
  intro w cwd org molt1 molt2 paths ended
  have derived := Command.wp_ends (ssuDiffPaths_wp org molt1 molt2) ended base
  constructor
  · intro first
    exact derived.1 (first ▸ cutName_molt base)
  · intro second
    exact derived.2 (second ▸ cutName_molt base)

/-! ## Molt -/

/-- What `main` of molt.c does with its arguments. -/
theorem moltPaths_wp (w : World) (cwd : List Name) (org cmp : Arg) :
    (moltPaths cwd [org, cmp]).wp
      (fun paths w' => w' = w ∧ Accepted w cwd [org, cmp] ∧
        (absolute w.fs cwd org.bytes).length < BUFMAX ∧
        (absolute w.fs cwd cmp.bytes).length < BUFMAX ∧
        ∀ base, cutName (absolute w.fs cwd cmp.bytes) = pure base →
          paths.2.2 = base ++ ascii "__molt")
      (fun stop _ => (∃ status, stop = .exit status) ↔ ¬ Accepted w cwd [org, cmp]) w := by
  simp only [moltPaths, Command.wp_bind, wp_checkDirs, wp_makeAbsolute]
  refine ⟨fun accepted => ⟨fun orgFits => ⟨fun cmpFits => ?_, ?_⟩, ?_⟩, ?_⟩
  · refine Command.wp_mono (deriveName_wp _ _) ?_ ?_
    · rintro name _ ⟨rfl, derived⟩
      exact ⟨rfl, accepted, orgFits, cmpFits, derived⟩
    · rintro _ _ rfl
      simp [accepted]
  · simp [accepted]
  · simp [accepted]
  · intro refused
    simp [refused]

theorem NamesInverse.given {w : World} {cwd : List Name} {org cmp : Arg}
    (inverse : NamesInverse w cwd org cmp) :
    ¬ Accepted w cwd [org, cmp] ∨
      ((absolute w.fs cwd org.bytes).length < BUFMAX ∧
        (absolute w.fs cwd cmp.bytes).length < BUFMAX ∧
        ∃ base, SkinForm (absolute w.fs cwd cmp.bytes) base) := by
  have outcome := moltPaths_wp w cwd org cmp
  rcases inverse with ⟨status, stopped⟩ | ⟨base, form, ⟨oPath, cPath, ended⟩, _⟩
  · exact .inl ((Command.wp_stops outcome stopped).mp ⟨status, rfl⟩)
  · obtain ⟨_, _, orgFits, cmpFits, _⟩ := Command.wp_ends outcome ended
    exact .inr ⟨orgFits, cmpFits, base, form⟩

/-- The names are inverse exactly when the arguments are refused, or fit their buffers and
    the second one is the path of a skin. -/
theorem namesInverse_iff (w : World) (cwd : List Name) (org cmp : Arg) :
    NamesInverse w cwd org cmp ↔
      ¬ Accepted w cwd [org, cmp] ∨
      ((absolute w.fs cwd org.bytes).length < BUFMAX ∧
        (absolute w.fs cwd cmp.bytes).length < BUFMAX ∧
        ∃ base, SkinForm (absolute w.fs cwd cmp.bytes) base) := by
  constructor
  · exact NamesInverse.given
  · intro right
    by_cases accepted : Accepted w cwd [org, cmp]
    · obtain ⟨orgFits, cmpFits, base, form⟩ := right.resolve_left (not_not_intro accepted)
      have moltFits := form.room cmpFits (ascii "__molt") rfl
      have skinFits := form.room cmpFits (ascii "__skin") rfl
      have molts : (moltPaths cwd [org, cmp]).wp (fun paths w' => paths.2.2 = base ++ ascii "__molt" ∧
          w' = w) (fun _ _ => False) w := by
        simp only [moltPaths, Command.wp_bind, wp_checkDirs, wp_makeAbsolute,
          wp_deriveName form.cutName, Command.wp_pure]
        exact ⟨fun _ => ⟨fun _ => ⟨fun _ => ⟨fun _ => ⟨trivial, trivial⟩, fun long => long moltFits⟩,
          fun long => long cmpFits⟩, fun long => long orgFits⟩, fun refused => refused accepted⟩
      have derives : (deriveName (ascii "__skin") (base ++ ascii "__molt")).wp
          (fun name w' => name = base ++ ascii "__skin" ∧ w' = w) (fun _ _ => False) w :=
        (wp_deriveName (cutName_molt base)).mpr ⟨fun _ => ⟨rfl, rfl⟩, fun long => long skinFits⟩
      obtain ⟨⟨oPath, cPath, _⟩, _, created, rfl, rfl⟩ := Command.ends_of_wp molts
      obtain ⟨_, _, derived, rfl, rfl⟩ := Command.ends_of_wp derives
      exact .inr ⟨base, form, ⟨oPath, cPath, created⟩, derived, readsSkin base⟩
    · have stops : (moltPaths cwd [org, cmp]).wp (fun _ _ => False)
          (fun stop _ => stop = .exit 1) w := by
        simp [moltPaths, wp_checkDirs, accepted]
      obtain ⟨_, stopped, rfl⟩ := Command.stops_of_wp stops
      exact .inl ⟨1, stopped⟩

def underscoreDir : Name := ⟨ascii "k_1", by decide⟩

def plainDir : Name := ⟨ascii "out", by decide⟩

def strayMolt : Name := ⟨ascii "__molt", by decide⟩

/-- The directory `/k_1/out`, with nothing in it. -/
def underscoreTree : Fs := (empty.mkdir [underscoreDir]).mkdir [underscoreDir, plainDir]

def underscoreArg : Arg := ⟨ascii "/k_1/out", by decide⟩

/-- No skin is given, nothing is refused, and the result goes to a directory beside the
    one that has the underscore. -/
theorem molt_name_astray :
    ¬ NamesInverse ⟨underscoreTree, []⟩ [] underscoreArg underscoreArg ∧
    underscoreTree.get [strayMolt] = none ∧
    (moltMain zeroJunk [] [underscoreArg, underscoreArg] ⟨underscoreTree, []⟩).1 = .ok () ∧
    (moltMain zeroJunk [] [underscoreArg, underscoreArg] ⟨underscoreTree, []⟩).2.fs.get
      [strayMolt] = some .dir := by
  refine ⟨?_, by decide, by rfl, by rfl⟩
  intro inverse
  have typed : absolute underscoreTree [] underscoreArg.bytes = ascii "/k_1/out" := by decide
  rcases inverse.given with refused | ⟨_, _, base, form⟩
  · exact refused (by decide)
  · rw [typed] at form
    have ending : ascii "__skin" <:+ ascii "/k_1/out" ∨ ascii "__skin/" <:+ ascii "/k_1/out" := by
      cases form with
      | inl bare => exact .inl ⟨base, bare.symm⟩
      | inr slashed => exact .inr ⟨base, slashed.symm⟩
    revert ending
    decide

end OslabProfiler.CompKernel

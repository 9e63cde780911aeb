import OslabProfiler.CompKernel.System

/-! # skin.c

`skin` writes, for a directory, a second tree of the same shape whose files
hold the digest and the path of the originals. MD5 is a parameter: a context
that takes the file in chunks, and the law that the chunks do not matter.
-/

namespace OslabProfiler.CompKernel

open Lib

/-- The sixteen bytes of an MD5 digest. -/
abbrev Digest := List.Vector Byte 16

/-- `MD5_Init`, `MD5_Update` and `MD5_Final`, and the function they compute. -/
structure Md5 where
  Ctx : Type
  init : Ctx
  update : Ctx → Bytes → Ctx
  final : Ctx → Digest
  digest : Bytes → Digest
  law : ∀ chunks : List Bytes, final (chunks.foldl update init) = digest chunks.flatten

namespace Md5

/-- The library that computes a given function by collecting its input. -/
def ofDigest (f : Bytes → Digest) : Md5 where
  Ctx := Bytes
  init := []
  update := (· ++ ·)
  final := f
  digest := f
  law chunks := by
    have collected : ∀ start : Bytes, chunks.foldl (· ++ ·) start = start ++ chunks.flatten := by
      induction chunks with
      | nil => simp
      | cons c cs ih => simp [ih]
    rw [collected, List.nil_append]

end Md5

/-- `while ((bytes = fread(buffer, 1, 1024, fp)) != 0) MD5_Update(...)`, for at
    most `n` reads. -/
def md5Loop (lib : Md5) : Nat → lib.Ctx → Bytes → lib.Ctx
  | 0, ctx, _ => ctx
  | n + 1, ctx, rest =>
      let buffer := rest.take 1024
      if buffer = [] then ctx else md5Loop lib n (lib.update ctx buffer) (rest.drop 1024)

def hexDigit (n : Nat) : Byte := if n < 10 then Fin.ofNat 256 (48 + n) else Fin.ofNat 256 (87 + n)

/-- `"%02x"` of every byte. -/
def hex (d : Bytes) : Bytes := d.flatMap fun b => [hexDigit (b.val / 16), hexDigit (b.val % 16)]

/-- `md5`: the buffer `hash_result` after the call. -/
def md5 (lib : Md5) (targetPath hashResult : Bytes) : Prog Bytes := do
  match ← contents targetPath with
  | none => pure hashResult
  | some data =>
      let ctx := md5Loop lib data.length lib.init data
      pure (hex (lib.final ctx).toList ++ [0])

def skinningFile (lib : Md5) (junk : Junk) (fpath spath : Bytes) : Prog Unit := do
  let hash ← md5 lib fpath (junk.hash fpath)
  if ← openTrunc spath then
    let buf ← sprintf (cString hash ++ ascii "|" ++ fpath)
    writeAll spath (buf ++ [0])
  else exit 1

/-- The body of the loop of `skinning_dir`. The `struct stat` is shared by all
    turns, so a failing `stat` finds the answer for the entry before. -/
def skinningEntry (lib : Md5) (junk : Junk) (skinningDir : Bytes → Bytes → Prog Unit)
    (fpath spath : Bytes) (statbuf : Bool) (file : Name) : Prog Bool := do
  let tmpFpath ← sprintf (child fpath file)
  let tmpSpath ← sprintf (child spath file)
  let statbuf ← stat tmpFpath statbuf
  if statbuf then
    mkdir tmpSpath
    skinningDir tmpFpath tmpSpath
  else
    skinningFile lib junk tmpFpath tmpSpath
  pure statbuf

def skinningDir (lib : Md5) (junk : Junk) : Nat → Bytes → Bytes → Prog Unit
  | 0, _, _ => Command.stop .depth
  | n + 1, fpath, spath => do
      match ← scandir fpath with
      | none => pure ()
      | some filelist =>
          let _ ← Command.fold (skinningEntry lib junk (skinningDir lib junk n) fpath spath)
            (junk.isDir fpath) filelist

/-- What the mains of `skin` and `molt` do with the directory they are to fill. -/
def freshDir (path : Bytes) : Prog Unit := do
  if ← access path then rmdir path
  mkdir path

/-- `main` of skin.c once the two paths are known. Every level of the recursion
    makes the path longer and a path has less than `BUFMAX` bytes, so the bound
    on the depth is never reached. -/
def skin (lib : Md5) (junk : Junk) (fpath spath : Bytes) : Prog Unit := do
  freshDir spath
  skinningDir lib junk BUFMAX fpath spath

/-! ## The digest -/

theorem md5Loop_chunks (lib : Md5) (n : Nat) (ctx : lib.Ctx) (rest : Bytes)
    (enough : rest.length ≤ n) :
    ∃ chunks : List Bytes, md5Loop lib n ctx rest = chunks.foldl lib.update ctx ∧ chunks.flatten = rest := by
  induction n generalizing ctx rest with
  | zero =>
      have : rest = [] := List.length_eq_zero_iff.mp (by omega)
      exact ⟨[], by simp [md5Loop], by simp [this]⟩
  | succ n ih =>
      by_cases done : rest.take 1024 = []
      · have : rest = [] := by simpa using done
        exact ⟨[], by simp [md5Loop, done], by simp [this]⟩
      · have nonempty : 0 < rest.length := by
          apply List.length_pos_iff.mpr
          intro h
          simp [h] at done
        obtain ⟨chunks, loop, all⟩ := ih (lib.update ctx (rest.take 1024)) (rest.drop 1024)
          (by simp only [List.length_drop]; omega)
        refine ⟨rest.take 1024 :: chunks, ?_, ?_⟩
        · simp only [md5Loop, if_neg done, loop, List.foldl_cons]
        · rw [List.flatten_cons, all, List.take_append_drop]

/-- The chunked loop feeds the whole file. -/
theorem md5Loop_final (lib : Md5) (data : Bytes) :
    lib.final (md5Loop lib data.length lib.init data) = lib.digest data := by
  obtain ⟨chunks, loop, all⟩ := md5Loop_chunks lib data.length lib.init data le_rfl
  rw [loop, lib.law, all]

@[simp] theorem length_hex (d : Bytes) : (hex d).length = 2 * d.length := by
  induction d with
  | nil => rfl
  | cons b d ih =>
      rw [hex, List.flatMap_cons, ← hex, List.length_append, ih]
      simp only [List.length_cons, List.length_nil]
      omega

theorem hexDigit_val {n : Nat} (small : n < 16) :
    (hexDigit n).val = if n < 10 then 48 + n else 87 + n := by
  unfold hexDigit
  split <;> simp only [Fin.ofNat] <;> omega

theorem hexDigit_injective {m n : Nat} (hm : m < 16) (hn : n < 16) (same : hexDigit m = hexDigit n) :
    m = n := by
  have values := congrArg Fin.val same
  rw [hexDigit_val hm, hexDigit_val hn] at values
  split at values <;> split at values <;> omega

theorem zero_not_mem_hex (d : Bytes) : 0 ∉ hex d := by
  intro h
  obtain ⟨b, _, digit⟩ := List.mem_flatMap.mp h
  have zero : ∀ n, n < 16 → (0 : Byte) ≠ hexDigit n := by
    intro n small same
    have value := congrArg Fin.val same
    rw [hexDigit_val small] at value
    split at value <;> simp only [Fin.val_zero] at value <;> omega
  simp only [List.mem_cons, List.not_mem_nil, or_false] at digit
  cases digit with
  | inl high => exact zero _ (by omega) high
  | inr low => exact zero _ (by omega) low

/-- Different digests print differently. -/
theorem hex_injective : Function.Injective hex := by
  intro a
  induction a with
  | nil =>
      intro b same
      have := congrArg List.length same
      simp only [length_hex, List.length_nil] at this
      exact (List.length_eq_zero_iff.mp (by omega)).symm
  | cons x a ih =>
      intro b same
      cases b with
      | nil => simp [hex] at same
      | cons y b =>
          simp only [hex, List.flatMap_cons, List.cons_append, List.nil_append,
            List.cons.injEq] at same
          have high := hexDigit_injective (by omega) (by omega) same.1
          have low := hexDigit_injective (by omega) (by omega) same.2.1
          rw [ih same.2.2, show x = y from Fin.ext (by omega)]

/-- The bytes of a skin file for a file with these contents at this path. -/
def skinRecord (lib : Md5) (path data : Bytes) : Bytes :=
  hex (lib.digest data).toList ++ ascii "|" ++ path ++ [0]

theorem cString_hex (d : Bytes) : cString (hex d ++ [0]) = hex d := by
  have all : ∀ b ∈ hex d, (decide (b ≠ 0)) = true := by
    intro b member
    simp only [decide_eq_true_eq]
    intro zero
    exact zero_not_mem_hex d (zero ▸ member)
  rw [cString, List.takeWhile_append_of_pos all]
  simp

end OslabProfiler.CompKernel

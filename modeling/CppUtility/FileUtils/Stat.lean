import Mathlib.Tactic.Common

/-!
# `fileSize` and `fileType`

Both functions ask `lstat` and keep one field of what it says.  What the system answers is an
argument here, an `errno` or a `struct stat`; the functions themselves decide nothing but how to
read it.

* `fileType` compares the bits of `st_mode` under `S_IFMT` with seven values, one after another.
  The values are different, so that one test at most succeeds and the order of the seven does not
  matter.  This is `fileType_eq_iff`: the answer is a kind of file exactly when `lstat` succeeds and
  says so.
* A failure of `lstat` has two answers.  `NOTEXIST` is for `ENOENT` alone, and a path that cannot be
  looked at for any other reason is `UNKNOWN`, the same as a file of a kind that is not among the
  seven.
* `fileSize` has no answer for a failure: it is 0 then, which is the size of an empty file too.
  `exists_of_fileSize_ne` is what is left, that any other size is that of a file.
-/

set_option autoImplicit false

namespace FileUtils

/-! ## The functions -/

/-- `FileType`. -/
inductive FileType
  | UNKNOWN | NOTEXIST | REGULAR | DIRECTORY | SYM_LINK | CHAR_DEV | BLOCK_DEV | FIFO | SOCKET
  deriving DecidableEq, Repr

/-- The fields of `struct stat` that are read. -/
structure Stat where
  st_mode : UInt32
  st_size : Int64

/-- The bits of `st_mode` that say what kind of file it is, and their values. -/
def S_IFMT : UInt32 := 0o170000
def S_IFREG : UInt32 := 0o100000
def S_IFDIR : UInt32 := 0o040000
def S_IFLNK : UInt32 := 0o120000
def S_IFCHR : UInt32 := 0o020000
def S_IFBLK : UInt32 := 0o060000
def S_IFIFO : UInt32 := 0o010000
def S_IFSOCK : UInt32 := 0o140000

def ENOENT : Int32 := 2

/-- `FileUtils::fileSize`; what `lstat` gives is `errno` or the result. -/
def fileSize : Except Int32 Stat → UInt64
  | .error _ => 0
  | .ok st => st.st_size.toUInt64

/-- `FileUtils::fileType`. -/
def fileType : Except Int32 Stat → FileType
  | .error errno => if errno = ENOENT then .NOTEXIST else .UNKNOWN
  | .ok st =>
    if st.st_mode &&& S_IFMT = S_IFREG then .REGULAR
    else if st.st_mode &&& S_IFMT = S_IFDIR then .DIRECTORY
    else if st.st_mode &&& S_IFMT = S_IFLNK then .SYM_LINK
    else if st.st_mode &&& S_IFMT = S_IFCHR then .CHAR_DEV
    else if st.st_mode &&& S_IFMT = S_IFBLK then .BLOCK_DEV
    else if st.st_mode &&& S_IFMT = S_IFIFO then .FIFO
    else if st.st_mode &&& S_IFMT = S_IFSOCK then .SOCKET
    else .UNKNOWN

/-! ## What they say -/

/-- The value of the bits for a kind of file. -/
def FileType.format : FileType → Option UInt32
  | .UNKNOWN => none
  | .NOTEXIST => none
  | .REGULAR => some S_IFREG
  | .DIRECTORY => some S_IFDIR
  | .SYM_LINK => some S_IFLNK
  | .CHAR_DEV => some S_IFCHR
  | .BLOCK_DEV => some S_IFBLK
  | .FIFO => some S_IFIFO
  | .SOCKET => some S_IFSOCK

/-- A file of some kind is found to be of that kind: none of the tests before says otherwise. -/
theorem fileType_of_format {st : Stat} {t : FileType}
    (h : t.format = some (st.st_mode &&& S_IFMT)) : fileType (.ok st) = t := by
  cases t with
  | UNKNOWN | NOTEXIST => cases h
  | REGULAR | DIRECTORY | SYM_LINK | CHAR_DEV | BLOCK_DEV | FIFO | SOCKET =>
    rw [fileType, ← Option.some_inj.mp h]
    rfl

/-- What is found of a file is its kind, if it is one of the seven. -/
theorem format_fileType (st : Stat) :
    (fileType (.ok st)).format = some (st.st_mode &&& S_IFMT) ∨ fileType (.ok st) = .UNKNOWN := by
  rw [fileType]
  split_ifs with hreg hdir hlnk hchr hblk hfifo hsock
  · exact .inl (congrArg some hreg.symm)
  · exact .inl (congrArg some hdir.symm)
  · exact .inl (congrArg some hlnk.symm)
  · exact .inl (congrArg some hchr.symm)
  · exact .inl (congrArg some hblk.symm)
  · exact .inl (congrArg some hfifo.symm)
  · exact .inl (congrArg some hsock.symm)
  · exact .inr rfl

/-- **`fileType` tells the kinds of files apart**, whatever the order of its tests: it finds a kind
exactly where `lstat` succeeds and says so. -/
theorem fileType_eq_iff {r : Except Int32 Stat} {t : FileType} {f : UInt32}
    (ht : t.format = some f) :
    fileType r = t ↔ ∃ st, r = .ok st ∧ st.st_mode &&& S_IFMT = f := by
  constructor
  · rintro rfl
    cases r with
    | error errno =>
      rw [fileType] at ht
      split at ht <;> cases ht
    | ok st =>
      rcases format_fileType st with h | h
      · exact ⟨st, rfl, Option.some_inj.mp (h.symm.trans ht)⟩
      · rw [h] at ht
        cases ht
  · rintro ⟨st, rfl, rfl⟩
    exact fileType_of_format ht

/-- Only a path that does not exist is said not to. -/
theorem fileType_eq_notexist_iff {r : Except Int32 Stat} :
    fileType r = .NOTEXIST ↔ r = .error ENOENT := by
  cases r with
  | error errno =>
    rw [fileType]
    split_ifs with h
    · simp [h]
    · simp [h]
  | ok st =>
    refine iff_of_false (fun h ↦ ?_) (by simp)
    rcases format_fileType st with h' | h' <;> rw [h] at h' <;> cases h'

/-- A size other than 0 is that of a file. -/
theorem exists_of_fileSize_ne {r : Except Int32 Stat} (h : fileSize r ≠ 0) :
    ∃ st, r = .ok st ∧ st.st_size ≠ 0 := by
  cases r with
  | error errno => exact absurd rfl h
  | ok st =>
    refine ⟨st, rfl, fun hzero ↦ h ?_⟩
    rw [fileSize, hzero]
    rfl

end FileUtils

import Mathlib.Logic.Function.Basic
import Rmdb.Errors

namespace Rmdb

def PAGE_SIZE : Nat := 4096

def INVALID_PAGE_ID : Int := -1

def MAX_FD : Int := 8192

/-- The bytes `data_` of a page. -/
abbrev PageData := Block PAGE_SIZE

structure PageId where
  fd : Int
  pageNo : Int
  deriving DecidableEq, Repr

/-- A regular file. Bytes past the end read as zero, which is also what the
operating system leaves in the hole when a write starts beyond the end. -/
structure File where
  len : Nat
  byte : Nat → UInt8
  past_end : ∀ i, len ≤ i → byte i = 0

namespace File

def empty : File := ⟨0, fun _ => 0, fun _ _ => rfl⟩

/-- `lseek` to `off` and `write` of `n` bytes. -/
def write (f : File) (off n : Nat) (src : Nat → UInt8) : File where
  len := if n = 0 then f.len else max f.len (off + n)
  byte i := if off ≤ i ∧ i < off + n then src (i - off) else f.byte i
  past_end i after := by
    split at after
    · rw [if_neg (by omega), f.past_end i after]
    · rw [if_neg (by omega), f.past_end i (by omega)]

/-- The bytes of page `no`, zero past the end of the file. -/
def page (f : File) (no : Nat) : PageData := Block.ofPtr fun i => f.byte (no * PAGE_SIZE + i)

theorem page_write_self (f : File) (no : Nat) (d : PageData) :
    (f.write (no * PAGE_SIZE) PAGE_SIZE d.peek).page no = d := by
  funext i
  have small := i.isLt
  simp only [page, Block.ofPtr, write]
  rw [if_pos (by omega), Nat.add_sub_cancel_left, Block.peek_of_lt d small]

/-- A short write replaces the front of the page. -/
theorem page_write_front (f : File) (no n : Nat) (src : Nat → UInt8) :
    (f.write (no * PAGE_SIZE) n src).page no = (f.page no).poke 0 n src := by
  funext i
  simp only [page, Block.ofPtr, Block.poke, write, Nat.zero_le, true_and, Nat.zero_add, Nat.sub_zero]
  by_cases front : i.val < n
  · rw [if_pos (by omega), if_pos front, Nat.add_sub_cancel_left]
  · rw [if_neg (by omega), if_neg front]

theorem page_write_other (f : File) {no other n : Nat} (src : Nat → UInt8) (different : other ≠ no)
    (bound : n ≤ PAGE_SIZE) : (f.write (no * PAGE_SIZE) n src).page other = f.page other := by
  funext i
  have small : i.val < 4096 := i.isLt
  simp only [page, Block.ofPtr, write]
  rw [if_neg]
  rintro ⟨lower, upper⟩
  simp only [PAGE_SIZE] at lower upper bound
  omega

end File

/-- The part of the operating system behind `DiskManager`: names, open
descriptors and file contents. `room` says how many bytes a write to a page
would take, so that a short write can be expressed. -/
structure Os where
  inode : String → Option Nat
  fds : Int → Option Nat
  file : Nat → File
  nextInode : Nat
  room : Int → Int → Nat

/-- `DiskManager`: the open-file tables and the page counters. -/
structure DiskManager where
  path2fd : String → Option Int
  fd2path : Int → Option String
  fd2pageno : Int → Int
  os : Os

namespace DiskManager

/-- The manager after the contents of one file were replaced. -/
def setFile (dm : DiskManager) (ino : Nat) (file : File) : DiskManager :=
  { dm with os := { dm.os with file := Function.update dm.os.file ino file } }

def fileOf (dm : DiskManager) (fd : Int) : Option File := (dm.os.fds fd).map dm.os.file

/-- `write_page`: the manager afterwards, and the exception if one is thrown. -/
def writePage (dm : DiskManager) (fd pageNo : Int) (src : Nat → UInt8) (numBytes : Nat) :
    DiskManager × Option Error :=
  match dm.os.fds fd with
  | none => (dm, some .unix)
  | some ino =>
    if pageNo < 0 then (dm, some .unix)
    else
      let written := min numBytes (dm.os.room fd pageNo)
      let file := (dm.os.file ino).write (pageNo.toNat * PAGE_SIZE) written src
      (dm.setFile ino file,
        if written = numBytes then none else some (.internal "DiskManager::write_page Error"))

/-- `read_page` into a buffer; a short read overwrites the front of the buffer and throws. -/
def readPage (dm : DiskManager) (fd pageNo : Int) {n : Nat} (offset : Block n) : Block n × Option Error :=
  match dm.fileOf fd with
  | none => (offset, some .unix)
  | some file =>
    if pageNo < 0 then (offset, some .unix)
    else
      let start := pageNo.toNat * PAGE_SIZE
      let bytesRead := min n (file.len - start)
      (offset.poke 0 bytesRead fun i => file.byte (start + i),
        if bytesRead = n then none else some (.internal "DiskManager::read_page Error"))

/-- `allocate_page`: the counter is a 32-bit atomic, so the increment wraps. -/
def allocatePage (dm : DiskManager) (fd : Int) : Except Error (Int × DiskManager) :=
  if 0 ≤ fd ∧ fd < MAX_FD then
    .ok (dm.fd2pageno fd,
      { dm with fd2pageno := Function.update dm.fd2pageno fd (wrapInt (dm.fd2pageno fd + 1)) })
  else .error .assertion

def setFd2pageno (dm : DiskManager) (fd startPageNo : Int) : DiskManager :=
  { dm with fd2pageno := Function.update dm.fd2pageno fd startPageNo }

/-- What the disk holds for a page: the bytes of its file, zero where the file
has none. -/
def diskPage (dm : DiskManager) (p : PageId) : PageData :=
  match dm.fileOf p.fd with
  | none => Block.zero
  | some file => file.page p.pageNo.toNat

/-- No file is open under two descriptors, as `open_file` refuses a second opening. -/
def Distinct (dm : DiskManager) : Prop :=
  ∀ fd fd' ino, dm.os.fds fd = some ino → dm.os.fds fd' = some ino → fd = fd'

theorem writePage_fd2pageno (dm : DiskManager) (fd pageNo : Int) (src : Nat → UInt8) (n : Nat) :
    (dm.writePage fd pageNo src n).1.fd2pageno = dm.fd2pageno := by
  unfold writePage
  split
  · rfl
  · split <;> rfl

theorem writePage_fds (dm : DiskManager) (fd pageNo : Int) (src : Nat → UInt8) (n : Nat) :
    (dm.writePage fd pageNo src n).1.os.fds = dm.os.fds := by
  unfold writePage
  split
  · rfl
  · split <;> rfl

theorem Distinct.writePage {dm dm' : DiskManager} {fd pageNo : Int} {src : Nat → UInt8} {n : Nat} {e : Option Error}
    (distinct : dm.Distinct)
    (run : dm.writePage fd pageNo src n = (dm', e)) : dm'.Distinct := by
  have fds := writePage_fds dm fd pageNo src n
  rw [run] at fds
  unfold Distinct
  rwa [fds]

/-- A successful write went to an open descriptor and a page inside the file's index range. -/
theorem writePage_ok {dm dm' : DiskManager} {fd pageNo : Int} {src : Nat → UInt8} {n : Nat}
    (run : dm.writePage fd pageNo src n = (dm', none)) :
    ∃ ino, dm.os.fds fd = some ino ∧ 0 ≤ pageNo ∧
      dm' = dm.setFile ino ((dm.os.file ino).write (pageNo.toNat * PAGE_SIZE) n src) := by
  unfold writePage at run
  split at run
  · cases run
  · rename_i ino opened
    split at run
    · cases run
    · rename_i nonneg
      obtain ⟨same, thrown⟩ := Prod.mk.inj run
      split at thrown
      · rename_i full
        rw [full] at same
        exact ⟨ino, opened, by omega, same.symm⟩
      · cases thrown

theorem readPage_ok {dm : DiskManager} {fd pageNo : Int} {n : Nat} {offset out : Block n}
    (run : dm.readPage fd pageNo offset = (out, none)) :
    ∃ file, dm.fileOf fd = some file ∧ 0 ≤ pageNo ∧
      out = Block.ofPtr fun i => file.byte (pageNo.toNat * PAGE_SIZE + i) := by
  unfold readPage at run
  split at run
  · cases run
  · rename_i file opened
    split at run
    · cases run
    · rename_i nonneg
      obtain ⟨same, thrown⟩ := Prod.mk.inj run
      split at thrown
      · rename_i full
        rw [full, Block.poke_full] at same
        exact ⟨file, opened, by omega, same.symm⟩
      · cases thrown

/-- A read that ends inside the file is whole. -/
theorem readPage_whole {dm : DiskManager} {fd pageNo : Int} {n : Nat} {offset : Block n} {file : File}
    (opened : dm.fileOf fd = some file) (nonneg : 0 ≤ pageNo) (inside : pageNo.toNat * PAGE_SIZE + n ≤ file.len) :
    dm.readPage fd pageNo offset = (Block.ofPtr fun i => file.byte (pageNo.toNat * PAGE_SIZE + i), none) := by
  have whole : min n (file.len - pageNo.toNat * PAGE_SIZE) = n := by omega
  unfold readPage
  simp only [opened, whole, if_true]
  rw [if_neg (by omega), Block.poke_full]

/-- A whole page read without an exception is what the disk holds for it. -/
theorem readPage_diskPage {dm : DiskManager} {p : PageId} {offset out : PageData}
    (run : dm.readPage p.fd p.pageNo offset = (out, none)) : out = dm.diskPage p ∧ 0 ≤ p.pageNo := by
  obtain ⟨file, opened, nonneg, same⟩ := readPage_ok run
  simp only [diskPage, opened]
  exact ⟨same, nonneg⟩

theorem diskPage_writePage_self {dm dm' : DiskManager} {p : PageId} {d : PageData}
    (run : dm.writePage p.fd p.pageNo d.peek PAGE_SIZE = (dm', none)) : dm'.diskPage p = d := by
  obtain ⟨ino, opened, _, rfl⟩ := writePage_ok run
  simp only [diskPage, fileOf, setFile, opened, Option.map_some, Function.update_self]
  exact File.page_write_self _ _ _

theorem diskPage_writePage_front {dm dm' : DiskManager} {p : PageId} {src : Nat → UInt8} {n : Nat}
    (run : dm.writePage p.fd p.pageNo src n = (dm', none)) :
    dm'.diskPage p = (dm.diskPage p).poke 0 n src := by
  obtain ⟨ino, opened, _, rfl⟩ := writePage_ok run
  simp only [diskPage, fileOf, setFile, opened, Option.map_some, Function.update_self]
  exact File.page_write_front ..

/-- Whether it throws or not, a write puts the front of its source into the page or does nothing. -/
theorem writePage_effect {dm dm' : DiskManager} {fd pageNo : Int} {src : Nat → UInt8} {n : Nat} {e : Option Error}
    (run : dm.writePage fd pageNo src n = (dm', e)) :
    dm' = dm ∨ ∃ ino k, dm.os.fds fd = some ino ∧ 0 ≤ pageNo ∧ k ≤ n ∧
      dm' = dm.setFile ino ((dm.os.file ino).write (pageNo.toNat * PAGE_SIZE) k src) := by
  unfold writePage at run
  split at run
  · cases run
    exact Or.inl rfl
  · rename_i ino opened
    split at run
    · cases run
      exact Or.inl rfl
    · rename_i nonneg
      obtain ⟨same, _⟩ := Prod.mk.inj run
      exact Or.inr ⟨ino, _, opened, by omega, Nat.min_le_left .., same.symm⟩

/-- A write of at most a page reaches no other page of any file. -/
theorem diskPage_writePage_other {dm dm' : DiskManager} {p q : PageId} {src : Nat → UInt8} {n : Nat} {e : Option Error}
    (distinct : dm.Distinct) (run : dm.writePage p.fd p.pageNo src n = (dm', e))
    (bound : n ≤ PAGE_SIZE) (different : q ≠ p) (nonneg : 0 ≤ q.pageNo) :
    dm'.diskPage q = dm.diskPage q := by
  obtain rfl | ⟨ino, k, opened, lower, small, rfl⟩ := writePage_effect run
  · rfl
  · cases atQ : dm.os.fds q.fd with
    | none => simp only [diskPage, fileOf, setFile, atQ, Option.map_none]
    | some other =>
      simp only [diskPage, fileOf, setFile, atQ, Option.map_some]
      by_cases same : other = ino
      · subst other
        have fdEq : q.fd = p.fd := distinct _ _ _ atQ opened
        have noNe : q.pageNo ≠ p.pageNo := by
          intro noEq
          apply different
          cases p; cases q
          simp only at fdEq noEq
          rw [fdEq, noEq]
        rw [Function.update_self, File.page_write_other _ _ (by omega) (Nat.le_trans small bound)]
      · rw [Function.update_of_ne same]

end DiskManager

end Rmdb

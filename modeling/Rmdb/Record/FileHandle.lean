import Rmdb.Kit.Result
import Rmdb.Record.Layout

namespace Rmdb

/-- What the record layer uses of the buffer pool and the disk manager. `φ` is
what a `Page*` points to. -/
class PageStore (σ : Type) (φ : outParam Type) where
  fetchPage : PageId → EStateM Error σ (Option φ)
  newPage : Int → EStateM Error σ (Option (PageId × φ))
  unpinPage : PageId → Bool → EStateM Error σ Bool
  flushAllPages : Int → EStateM Error σ Unit
  pageId : σ → φ → PageId
  data : σ → φ → PageData
  setData : σ → φ → PageData → σ
  readPage : Int → Int → Nat → EStateM Error σ (Nat → UInt8)
  writePage : Int → Int → (Nat → UInt8) → Nat → EStateM Error σ Unit
  setFd2pageno : Int → Int → σ → σ
  /-- The descriptors are those the operating system gives. -/
  createFile : String → Int → EStateM Error σ Unit
  openFile : String → Int → EStateM Error σ Int
  closeFile : Int → EStateM Error σ Unit

structure RmFileHandle where
  fd : Int
  fileHdr : RmFileHdr
  deriving DecidableEq

/-- A file handle over a page store; the record operations change both. -/
structure RmFile (σ : Type) where
  handle : RmFileHandle
  store : σ

abbrev RmM (σ : Type) := EStateM Error (RmFile σ)

namespace RmFile
variable {σ φ : Type} [PageStore σ φ] {α : Type}

def hdr (s : RmFile σ) : RmFileHdr := s.handle.fileHdr

def setHdr (s : RmFile σ) (h : RmFileHdr) : RmFile σ := { s with handle := { s.handle with fileHdr := h } }

def page (s : RmFile σ) (page : φ) : PageData := PageStore.data s.store page

/-- A call on the pool or the disk manager. -/
def onStore (x : EStateM Error σ α) : RmM σ α := fun s =>
  match x s.store with
  | .ok a t => .ok a { s with store := t }
  | .error e t => .error e { s with store := t }

def modifyPage (page : φ) (f : PageData → PageData) : RmM σ PUnit :=
  modify fun s => { s with store := PageStore.setData s.store page (f (PageStore.data s.store page)) }

/-- Undefined behaviour unless the condition holds. -/
def require (p : Prop) [Decidable p] : RmM σ PUnit := if p then pure ⟨⟩ else throw .undefined

end RmFile

namespace RmFileHandle
open RmFile
variable {σ φ : Type} [PageStore σ φ]

/-- The constructor: the header comes from page 0, and the page counter is set to its `num_pages`. -/
def new (fd : Int) : EStateM Error σ RmFileHandle := do
  let hdr := RmFileHdr.ofBytes (← PageStore.readPage fd RM_FILE_HDR_PAGE RmFileHdr.size)
  modify (PageStore.setFd2pageno fd hdr.numPages)
  return ⟨fd, hdr⟩

/-- A page the pool refused would be a null pointer in the handle. -/
def fetchPageHandle (pageNo : Int) : RmM σ φ := do
  let s ← get
  if s.hdr.numPages ≤ pageNo then throw (.pageNotExist "" pageNo)
  else
    match ← onStore (PageStore.fetchPage ⟨s.handle.fd, pageNo⟩) with
    | none => throw .undefined
    | some page => return page

/-- The page header and bitmap of a new page. -/
def initPage (h : RmFileHdr) (d : PageData) : PageData :=
  Bitmap.init (RmPageHandle.setNumRecords (RmPageHandle.setNextFreePageNo d RM_NO_PAGE) 0)
    RmPageHandle.bitmap h.bitmapSize.toNat

def createNewPageHandle : RmM σ φ := do
  let s ← get
  match ← onStore (PageStore.newPage s.handle.fd) with
  | none => throw .undefined
  | some (_, page) =>
    modifyPage page (initPage s.hdr)
    require (s.hdr.numPages ≠ intMax)
    modify fun s => s.setHdr { s.hdr with
      numPages := s.hdr.numPages + 1
      firstFreePageNo := (PageStore.pageId s.store page).pageNo }
    return page

def createPageHandle : RmM σ φ := do
  let s ← get
  if s.hdr.firstFreePageNo = RM_NO_PAGE then createNewPageHandle
  else fetchPageHandle s.hdr.firstFreePageNo

def releasePageHandle (page : φ) : RmM σ PUnit := do
  let s ← get
  modifyPage page fun d => RmPageHandle.setNextFreePageNo d s.hdr.firstFreePageNo
  modify fun s => s.setHdr { s.hdr with firstFreePageNo := (PageStore.pageId s.store page).pageNo }

def isRecord (rid : Rid) : RmM σ Bool := do
  let page ← fetchPageHandle rid.pageNo
  let s ← get
  require (Bitmap.Inside RmPageHandle.bitmap rid.slotNo)
  return Bitmap.isSet (s.page page) RmPageHandle.bitmap rid.slotNo

def getRecord (rid : Rid) : RmM σ (Option RmRecord) := do
  let page ← fetchPageHandle rid.pageNo
  let s ← get
  require (Bitmap.Inside RmPageHandle.bitmap rid.slotNo)
  if Bitmap.isSet (s.page page) RmPageHandle.bitmap rid.slotNo then
    require (RmPageHandle.SlotInside s.hdr rid.slotNo)
    return some (RmPageHandle.readSlot s.hdr (s.page page) rid.slotNo)
  else return none

/-- Steps 3 to 5 of `insert_record`: the slot is filled, marked and counted. -/
def placeRecord (h : RmFileHdr) (slotNo : Int) (buf : Nat → UInt8) (d : PageData) : PageData :=
  let d := Bitmap.set (RmPageHandle.writeSlot h d slotNo buf) RmPageHandle.bitmap slotNo
  RmPageHandle.setNumRecords d (RmPageHandle.numRecords d + 1)

def insertRecord (buf : Nat → UInt8) : RmM σ Rid := do
  let page ← createPageHandle
  let s ← get
  let slotNo := Bitmap.firstBit false (s.page page) RmPageHandle.bitmap s.hdr.numRecordsPerPage
  require (RmPageHandle.SlotInside s.hdr slotNo ∧ Bitmap.Inside RmPageHandle.bitmap slotNo)
  modifyPage page (placeRecord s.hdr slotNo buf)
  modify fun s =>
    if RmPageHandle.numRecords (s.page page) = s.hdr.numRecordsPerPage then
      s.setHdr { s.hdr with firstFreePageNo := RmPageHandle.nextFreePageNo (s.page page) }
    else s
  let s ← get
  let _ ← onStore (PageStore.unpinPage (PageStore.pageId s.store page) true)
  return ⟨(PageStore.pageId s.store page).pageNo, slotNo⟩

/-- Steps 4 and 5 of `delete_record`. -/
def dropRecord (slotNo : Int) (d : PageData) : PageData :=
  let d := Bitmap.reset d RmPageHandle.bitmap slotNo
  RmPageHandle.setNumRecords d (RmPageHandle.numRecords d - 1)

/-- An empty slot is left alone; the page then stays pinned. -/
def deleteRecord (rid : Rid) : RmM σ PUnit := do
  let page ← fetchPageHandle rid.pageNo
  let s ← get
  require (Bitmap.Inside RmPageHandle.bitmap rid.slotNo)
  if Bitmap.isSet (s.page page) RmPageHandle.bitmap rid.slotNo then
    modifyPage page (dropRecord rid.slotNo)
    if RmPageHandle.numRecords (s.page page) = s.hdr.numRecordsPerPage then releasePageHandle page
    let s ← get
    let _ ← onStore (PageStore.unpinPage (PageStore.pageId s.store page) true)

def updateRecord (rid : Rid) (buf : Nat → UInt8) : RmM σ PUnit := do
  let page ← fetchPageHandle rid.pageNo
  let s ← get
  require (Bitmap.Inside RmPageHandle.bitmap rid.slotNo)
  if Bitmap.isSet (s.page page) RmPageHandle.bitmap rid.slotNo then
    require (RmPageHandle.SlotInside s.hdr rid.slotNo)
    modifyPage page fun d => RmPageHandle.writeSlot s.hdr d rid.slotNo buf
    let s ← get
    let _ ← onStore (PageStore.unpinPage (PageStore.pageId s.store page) true)

end RmFileHandle

namespace RmManager
variable {σ φ : Type} [PageStore σ φ]

/-- The header goes straight to page 0; the operating system makes the file under the
descriptor `made` and opens it as `fd`. -/
def createFile (filename : String) (recordSize made fd : Int) : EStateM Error σ Unit := do
  if recordSize < 1 ∨ recordSize > RM_MAX_RECORD_SIZE then throw (.invalidRecordSize recordSize)
  else
    PageStore.createFile filename made
    let fd ← PageStore.openFile filename fd
    PageStore.writePage fd RM_FILE_HDR_PAGE (RmFileHdr.create recordSize).bytes RmFileHdr.size
    PageStore.closeFile fd

def openFile (filename : String) (fd : Int) : EStateM Error σ RmFileHandle := do
  let fd ← PageStore.openFile filename fd
  RmFileHandle.new fd

def closeFile (h : RmFileHandle) : EStateM Error σ Unit := do
  PageStore.writePage h.fd RM_FILE_HDR_PAGE h.fileHdr.bytes RmFileHdr.size
  PageStore.flushAllPages h.fd
  PageStore.closeFile h.fd

end RmManager

end Rmdb

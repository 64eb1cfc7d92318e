import Rmdb.Index.FileHdr
import Rmdb.Record.PoolStore
import Rmdb.System.Meta

namespace Rmdb
open BufferPoolManager

def IX_NO_PAGE : Int := -1

def IX_FILE_HDR_PAGE : Int := 0

def IX_LEAF_HEADER_PAGE : Int := 1

def IX_INIT_ROOT_PAGE : Int := 2

def IX_INIT_NUM_PAGES : Int := 3

def IX_MAX_COL_LEN : Int := 512

/-- The bytes of a list of `int`s. -/
def wordBytes (words : List Int) (i : Nat) : UInt8 := encodeInt (words.getD (i / 4) 0) (i % 4)

/-- An empty leaf between two leaves; `is_leaf` and its padding are the word 1. -/
def leafPage (prevLeaf nextLeaf : Int) : Nat → UInt8 := wordBytes [IX_NO_PAGE, IX_NO_PAGE, 0, 1, prevLeaf, nextLeaf]

structure IxIndexHandle where
  fd : Int
  fileHdr : IxFileHdr
  deriving DecidableEq

variable {N : Nat}

/-- A check that touches neither the pool nor the disk. -/
def ensure {α : Type} : Except Error α → PoolM N α
  | .ok a => pure a
  | .error e => throw e

namespace IxIndexHandle

/-- The constructor. The header is read twice, first over the pointer to it. -/
def new (fd : Int) : PoolM N IxIndexHandle := do
  let _ ← PageStore.readPage fd IX_FILE_HDR_PAGE 8
  let buf ← PageStore.readPage fd IX_FILE_HDR_PAGE PAGE_SIZE
  let fileHdr ← ensure (IxFileHdr.deserialize ((List.range PAGE_SIZE).map buf))
  let s ← get
  let nowPageNo := s.diskManager.fd2pageno fd
  if nowPageNo = intMax then throw .undefined
  modify (PageStore.setFd2pageno fd (nowPageNo + 1))
  return ⟨fd, fileHdr⟩

/-- `create_node`; the handle counts the page before it has one. Without a frame the node
would be made of a null page. -/
def createNode : EStateM Error (IxIndexHandle × BufferPoolManager N) (PageId × Fin N) := fun (h, s) =>
  if h.fileHdr.numPages = intMax then .error .undefined (h, s)
  else
    let h := { h with fileHdr := { h.fileHdr with numPages := h.fileHdr.numPages + 1 } }
    match newPage h.fd s with
    | .ok (some node) t => .ok node (h, t)
    | .ok none t => .error .undefined (h, t)
    | .error e t => .error e (h, t)

end IxIndexHandle

namespace IxManager

/-- How many keys a node takes; `col_tot_len + sizeof(Rid)` and the quotient are unsigned, a page
header takes 24 bytes. -/
def btreeOrder (colTotLen : Int) : Int := (PAGE_SIZE - 24) / ((colTotLen + 8) % 18446744073709551616) - 1

theorem btreeOrder_succ {colTotLen : Int} (nonneg : 0 ≤ colTotLen) (small : colTotLen ≤ 512) :
    btreeOrder colTotLen + 1 = 4072 / (colTotLen + 8) := by
  rw [btreeOrder, Int.emod_eq_of_lt (by omega) (by omega)]
  exact sub_add_cancel _ _

/-- `int col_tot_len`. -/
def colTotLen (indexCols : List ColMeta) : Int := sumInt (indexCols.map (·.len))

/-- The header of a new index. -/
def newFileHdr (indexCols : List ColMeta) : IxFileHdr :=
  let colTotLen := colTotLen indexCols
  IxFileHdr.updateTotLen {
    firstFreePageNo := IX_NO_PAGE
    numPages := IX_INIT_NUM_PAGES
    rootPage := IX_INIT_ROOT_PAGE
    colNum := indexCols.length
    colTypes := indexCols.map (·.type)
    colLens := indexCols.map (·.len)
    colTotLen := colTotLen
    btreeOrder := btreeOrder colTotLen
    keysSize := (btreeOrder colTotLen + 1) * colTotLen
    firstLeaf := IX_INIT_ROOT_PAGE
    lastLeaf := IX_INIT_ROOT_PAGE
    totLen := 0 }

def createIndex (filename : String) (indexCols : List ColMeta) (made fd : Int) : PoolM N Unit := do
  let ixName := getIndexName filename indexCols
  PageStore.createFile ixName made
  let fd ← PageStore.openFile ixName fd
  let colTotLen := colTotLen indexCols
  if IX_MAX_COL_LEN < colTotLen then throw (.invalidColLength colTotLen)
  if (colTotLen + 8) % 18446744073709551616 = 0 then throw .undefined
  if btreeOrder colTotLen ≤ 2 then throw .assertion
  let hdr := newFileHdr indexCols
  let data ← ensure hdr.image
  PageStore.writePage fd IX_FILE_HDR_PAGE (fun i => data.getD i 0) hdr.totLen.toNat
  PageStore.writePage fd IX_LEAF_HEADER_PAGE (leafPage IX_INIT_ROOT_PAGE IX_INIT_ROOT_PAGE) PAGE_SIZE
  PageStore.writePage fd IX_INIT_ROOT_PAGE (leafPage IX_LEAF_HEADER_PAGE IX_LEAF_HEADER_PAGE) PAGE_SIZE
  modify (PageStore.setFd2pageno fd (IX_INIT_NUM_PAGES - 1))
  PageStore.closeFile fd

def openIndex (filename : String) (indexCols : List ColMeta) (fd : Int) : PoolM N IxIndexHandle := do
  let fd ← PageStore.openFile (getIndexName filename indexCols) fd
  IxIndexHandle.new fd

def closeIndex (ih : IxIndexHandle) : PoolM N Unit := do
  let data ← ensure ih.fileHdr.image
  PageStore.writePage ih.fd IX_FILE_HDR_PAGE (fun i => data.getD i 0) ih.fileHdr.totLen.toNat
  PageStore.flushAllPages ih.fd
  PageStore.closeFile ih.fd

end IxManager

end Rmdb

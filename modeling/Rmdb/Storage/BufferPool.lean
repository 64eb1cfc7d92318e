import Rmdb.Kit.Result
import Rmdb.Replacer.Lru
import Rmdb.Storage.Disk

namespace Rmdb

/-- A `Page` of the pool: its bytes and the metadata the pool keeps with them. -/
structure Page where
  id : PageId
  data : PageData
  isDirty : Bool
  pinCount : Int

structure BufferPoolManager (N : Nat) where
  pages : Fin N → Page
  pageTable : PageId → Option (Fin N)
  freeList : List (Fin N)
  replacer : LRUReplacer (Fin N)
  diskManager : DiskManager

/-- A call on a pool of `N` frames. -/
abbrev PoolM (N : Nat) := EStateM Error (BufferPoolManager N)

namespace BufferPoolManager
variable {N : Nat}

/-- The constructor. `Page` leaves `id_.fd` uninitialised; `junk` is what it holds. -/
def new (dm : DiskManager) (junk : Fin N → Int) : BufferPoolManager N where
  pages f := ⟨⟨junk f, INVALID_PAGE_ID⟩, Block.zero, false, 0⟩
  pageTable _ := none
  freeList := List.finRange N
  replacer := LRUReplacer.new N
  diskManager := dm

def setPage (s : BufferPoolManager N) (f : Fin N) (page : Page) : BufferPoolManager N :=
  { s with pages := Function.update s.pages f page }

def findVictimPage : PoolM N (Option (Fin N)) := fun s =>
  match s.freeList with
  | f :: rest => .ok (some f) { s with freeList := rest }
  | [] => .ok s.replacer.victim.1 { s with replacer := s.replacer.victim.2 }

/-- `write_page` of a frame under the given page id, then `is_dirty_ = false`. -/
def writeFrame (p : PageId) (f : Fin N) : PoolM N Unit := fun s =>
  match s.diskManager.writePage p.fd p.pageNo (s.pages f).data.peek PAGE_SIZE with
  | (dm, none) => .ok () ({ s with diskManager := dm }.setPage f { s.pages f with isDirty := false })
  | (dm, some e) => .error e { s with diskManager := dm }

/-- The write-back of a frame that is about to lose its page. -/
def writeBack (p : PageId) (f : Fin N) : PoolM N Unit := fun s =>
  if (s.pages f).isDirty then writeFrame p f s else .ok () s

/-- What `fetch_page` and `new_page` do with a victim first: write back its page
if that is dirty, then take the page out of the page table. -/
def evict (f : Fin N) : PoolM N Unit := do
  let s ← get
  writeBack (s.pages f).id f
  modify fun t =>
    if (s.pages f).id.pageNo ≠ INVALID_PAGE_ID then
      { t with pageTable := Function.update t.pageTable (s.pages f).id none }
    else t

/-- `read_page` into a frame. -/
def readFrame (p : PageId) (f : Fin N) : PoolM N Unit := fun s =>
  match s.diskManager.readPage p.fd p.pageNo (s.pages f).data with
  | (data, none) => .ok () (s.setPage f { s.pages f with data := data })
  | (data, some e) => .error e (s.setPage f { s.pages f with data := data })

/-- The frame becomes the pinned, clean home of page `p`. -/
def install (p : PageId) (f : Fin N) (data : PageData) (s : BufferPoolManager N) : BufferPoolManager N :=
  { s.setPage f ⟨p, data, false, 1⟩ with
    pageTable := Function.update s.pageTable p (some f)
    replacer := s.replacer.pin f }

def fetchPage (p : PageId) : PoolM N (Option (Fin N)) := do
  let s ← get
  match s.pageTable p with
  | some f =>
    -- pin_count_ is a signed int
    if (s.pages f).pinCount = intMax then throw .undefined
    else
      modify fun s => { s.setPage f { s.pages f with pinCount := (s.pages f).pinCount + 1 } with
        replacer := s.replacer.pin f }
      return some f
  | none =>
    match ← findVictimPage with
    | none => return none
    | some f =>
      evict f
      readFrame p f
      modify fun s => install p f (s.pages f).data s
      return some f

def unpinPage (p : PageId) (isDirty : Bool) : PoolM N Bool := fun s =>
  match s.pageTable p with
  | none => .ok false s
  | some f =>
    let page := s.pages f
    if page.pinCount ≤ 0 then .ok false s
    else
      .ok true { s.setPage f { page with pinCount := page.pinCount - 1, isDirty := page.isDirty || isDirty } with
        replacer := if page.pinCount - 1 = 0 then s.replacer.unpin f else s.replacer }

def flushPage (p : PageId) : PoolM N Bool := do
  let s ← get
  match s.pageTable p with
  | none => return false
  | some f =>
    writeFrame p f
    return true

/-- `new_page` for the descriptor in `*page_id`; the id it stores there comes back with the frame. -/
def newPage (fd : Int) : PoolM N (Option (PageId × Fin N)) := do
  match ← findVictimPage with
  | none => return none
  | some f =>
    evict f
    let s ← get
    match s.diskManager.allocatePage fd with
    | .error e => throw e
    | .ok (pageNo, dm) =>
      modify fun s => install ⟨fd, pageNo⟩ f Block.zero { s with diskManager := dm }
      return some (⟨fd, pageNo⟩, f)

def deletePage (p : PageId) : PoolM N Bool := do
  let s ← get
  match s.pageTable p with
  | none => return true
  | some f =>
    if (s.pages f).pinCount ≠ 0 then return false
    else
      writeBack p f
      modify fun s =>
        { s.setPage f ⟨⟨(s.pages f).id.fd, INVALID_PAGE_ID⟩, Block.zero, false, 0⟩ with
          pageTable := Function.update s.pageTable p none
          freeList := s.freeList ++ [f] }
      return true

/-- The body of the loop of `flush_all_pages`: a frame is written if it belongs to the file. -/
def flushFrame (fd : Int) (f : Fin N) : PoolM N Unit := fun s =>
  if (s.pages f).id.fd = fd ∧ (s.pages f).id.pageNo ≠ INVALID_PAGE_ID then writeFrame (s.pages f).id f s
  else .ok () s

def flushFrames (fd : Int) : List (Fin N) → PoolM N Unit
  | [] => pure ()
  | f :: rest => do
    flushFrame fd f
    flushFrames fd rest

def flushAllPages (fd : Int) : PoolM N Unit := flushFrames fd (List.finRange N)

/-- The public calls of the pool. -/
inductive Call
  | fetchPage (p : PageId)
  | unpinPage (p : PageId) (isDirty : Bool)
  | flushPage (p : PageId)
  | newPage (fd : Int)
  | deletePage (p : PageId)
  | flushAllPages (fd : Int)

/-- What a call hands back to its client. -/
inductive Reply (N : Nat)
  | page (f : Option (Fin N))
  | created (page : Option (PageId × Fin N))
  | flag (b : Bool)
  | done

def call : Call → PoolM N (Reply N)
  | .fetchPage p => .page <$> fetchPage p
  | .unpinPage p d => .flag <$> unpinPage p d
  | .flushPage p => .flag <$> flushPage p
  | .newPage fd => .created <$> newPage fd
  | .deletePage p => .flag <$> deletePage p
  | .flushAllPages fd => (fun _ => .done) <$> flushAllPages fd

end BufferPoolManager

end Rmdb

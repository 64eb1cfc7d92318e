import Rmdb.Index.Nodes

namespace Rmdb
open BufferPoolManager IxManager DiskManager
variable {N : Nat} {s t : BufferPoolManager N} {filename : String} {cols : List ColMeta} {made fd fd' : Int}

/-! Calls on files where nothing is in their way. -/

namespace BufferPoolManager
variable {path : String} {ino : Nat}

theorem createFile_runs (missing : s.diskManager.os.inode path = none) (usable : Usable s.diskManager fd) :
    ∃ dm, PageStore.createFile path fd s = .ok () { s with diskManager := dm } ∧
      dm.os.inode path = some s.diskManager.os.nextInode ∧
      dm.path2fd = s.diskManager.path2fd ∧ dm.os.fds = s.diskManager.os.fds ∧ dm.os.room = s.diskManager.os.room ∧
      dm.fd2pageno = s.diskManager.fd2pageno := by
  simp only [PageStore.createFile, DiskManager.createFile, isFile, missing, Option.isSome_none, Bool.false_eq_true,
    if_false, if_neg (not_not.mpr usable)]
  exact ⟨_, rfl, Function.update_self .., rfl, rfl, rfl, rfl⟩

theorem openFile_runs (named : s.diskManager.os.inode path = some ino) (closed : s.diskManager.path2fd path = none)
    (usable : Usable s.diskManager fd) : ∃ dm, PageStore.openFile path fd s =
    .ok fd { s with diskManager := dm } ∧ dm.fd2path fd = some path ∧
      dm.os.fds = Function.update s.diskManager.os.fds fd (some ino) ∧ dm.os.file = s.diskManager.os.file ∧
      dm.os.room = s.diskManager.os.room ∧ dm.fd2pageno = s.diskManager.fd2pageno := by
  simp only [PageStore.openFile, DiskManager.openFile, named, closed, Option.isSome_none, Bool.false_eq_true,
    if_false, if_neg (not_not.mpr usable)]
  exact ⟨_, rfl, Function.update_self .., rfl, rfl, rfl, rfl⟩

theorem writePage_runs {k : Int} (src : Nat → UInt8) {n : Nat} (opened : s.diskManager.os.fds fd = some ino)
    (nonneg : 0 ≤ k) (room : n ≤ s.diskManager.os.room fd k) : ∃ dm, PageStore.writePage fd k src n s =
    .ok () { s with diskManager := dm } ∧ dm.fd2path = s.diskManager.fd2path ∧ dm.os.fds = s.diskManager.os.fds ∧
      dm.os.room = s.diskManager.os.room ∧ dm.fd2pageno = s.diskManager.fd2pageno := by
  have whole : min n (s.diskManager.os.room fd k) = n := by omega
  simp only [PageStore.writePage, DiskManager.writePage, opened, whole, if_true]
  rw [if_neg (by omega)]
  exact ⟨_, rfl, rfl, rfl, rfl, rfl⟩

theorem closeFile_runs (named : s.diskManager.fd2path fd = some path) (opened : s.diskManager.os.fds fd = some ino) :
    ∃ dm, PageStore.closeFile fd s = .ok () { s with diskManager := dm } ∧
      dm.os.fds = Function.update s.diskManager.os.fds fd none ∧ dm.fd2pageno = s.diskManager.fd2pageno := by
  simp only [PageStore.closeFile, DiskManager.closeFile, named, opened]
  exact ⟨_, rfl, rfl, rfl⟩

end BufferPoolManager

/-! What `create_index` leaves on disk, and what `open_index` makes of it. -/

namespace IxManager

/-- The total of positive lengths bounds their number and each of them. -/
theorem sum_bounds (positive : ∀ col ∈ cols, 0 < col.len) : (cols.length : Int) ≤ (cols.map (·.len)).sum ∧
    ∀ col ∈ cols, col.len ≤ (cols.map (·.len)).sum := by
  induction cols with
  | nil => exact ⟨le_rfl, fun _ member => nomatch member⟩
  | cons col cols ih =>
    obtain ⟨count, each⟩ := ih fun other member => positive other (List.mem_cons_of_mem col member)
    have here := positive col List.mem_cons_self
    rw [List.map_cons, List.sum_cons, List.length_cons]
    refine ⟨by omega, fun other member => ?_⟩
    rcases List.mem_cons.mp member with rfl | member
    · omega
    · have := each other member
      omega

theorem btreeOrder_bounds {v : Int} (nonneg : 0 ≤ v) (small : v ≤ 512) :
    6 ≤ btreeOrder v ∧ btreeOrder v ≤ 508 ∧ IsInt ((btreeOrder v + 1) * v) := by
  have quotient := btreeOrder_succ nonneg small
  have lower : 7 ≤ (4072 : Int) / (v + 8) := Int.le_ediv_of_mul_le (by omega) (by omega)
  have upper : (4072 : Int) / (v + 8) ≤ 509 := Int.ediv_le_of_le_mul (by omega) (by omega)
  refine ⟨by omega, by omega, ?_⟩
  rw [quotient]
  have product := mul_le_mul upper small nonneg (by decide)
  have below := mul_nonneg (by omega : 0 ≤ (4072 : Int) / (v + 8)) nonneg
  unfold IsInt intMin intMax
  omega

/-- Within the limit nothing wraps. -/
theorem colTotLen_eq (positive : ∀ col ∈ cols, 0 < col.len) (small : (cols.map (·.len)).sum ≤ IX_MAX_COL_LEN) :
    colTotLen cols = (cols.map (·.len)).sum := by
  obtain ⟨count, _⟩ := sum_bounds positive
  unfold IX_MAX_COL_LEN at small
  rw [colTotLen, sumInt_eq]
  exact wrapInt_of_isInt ⟨by unfold intMin; omega, by unfold intMax; omega⟩

theorem newFileHdr_wellFormed (positive : ∀ col ∈ cols, 0 < col.len) (small : (cols.map (·.len)).sum ≤ IX_MAX_COL_LEN) :
    (newFileHdr cols).WellFormed ∧ (newFileHdr cols).totLen = 40 + 8 * cols.length ∧ cols.length ≤ 512 := by
  obtain ⟨count, each⟩ := sum_bounds positive
  obtain ⟨lower, upper, keys⟩ := btreeOrder_bounds (v := (cols.map (·.len)).sum) (by omega) small
  have total := colTotLen_eq positive small
  unfold IX_MAX_COL_LEN at small
  have range : IsInt (40 + 8 * (cols.length : Int)) := ⟨by unfold intMin; omega, by unfold intMax; omega⟩
  refine ⟨⟨congrArg Nat.cast (List.length_map ..), congrArg Nat.cast (List.length_map ..), fun v member => ?_⟩,
    wrapInt_of_isInt range, by omega⟩
  simp only [newFileHdr, total, IxFileHdr.updateTotLen, wrapInt_of_isInt range, IxFileHdr.words, List.mem_append,
    List.mem_cons, List.not_mem_nil, or_false, List.mem_map] at member
  rcases member with ((front | ⟨type, _, rfl⟩) | ⟨col, member, rfl⟩) | back
  · unfold IsInt intMin intMax IX_NO_PAGE IX_INIT_NUM_PAGES IX_INIT_ROOT_PAGE at *
    omega
  · cases type <;> decide
  · have := positive col member
    have := each col member
    exact ⟨by unfold intMin; omega, by unfold intMax; omega⟩
  · rcases back with rfl | rfl | rfl | rfl | rfl
    · exact ⟨by unfold intMin; omega, by unfold intMax; omega⟩
    · exact ⟨by unfold intMin; omega, by unfold intMax; omega⟩
    · exact keys
    · decide
    · decide

/-- The file of a new index: the header, and over it the two leaf pages. -/
def newFile (cols : List ColMeta) : File :=
  ((File.empty.write (0 * PAGE_SIZE) (newFileHdr cols).totLen.toNat fun i => (newFileHdr cols).text.getD i 0).write
    (1 * PAGE_SIZE) PAGE_SIZE (leafPage IX_INIT_ROOT_PAGE IX_INIT_ROOT_PAGE)).write
    (2 * PAGE_SIZE) PAGE_SIZE (leafPage IX_LEAF_HEADER_PAGE IX_LEAF_HEADER_PAGE)

theorem createIndex_ok (run : createIndex filename cols made fd s = .ok () t) (positive : ∀ col ∈ cols, 0 < col.len)
    (small : (cols.map (·.len)).sum ≤ IX_MAX_COL_LEN) :
    ∃ ino, t.diskManager.os.inode (getIndexName filename cols) = some ino ∧
      t.diskManager.path2fd (getIndexName filename cols) = none ∧ t.diskManager.os.file ino = newFile cols := by
  obtain ⟨_, one, create, rest⟩ := bind_eq_ok.mp run
  obtain ⟨out, two, opening, rest⟩ := bind_eq_ok.mp rest
  simp only at rest
  split at rest
  · cases rest
  split at rest
  · cases rest
  split at rest
  · cases rest
  obtain ⟨data, three, image, rest⟩ := bind_eq_ok.mp rest
  obtain ⟨_, four, write₀, rest⟩ := bind_eq_ok.mp rest
  obtain ⟨_, five, write₁, rest⟩ := bind_eq_ok.mp rest
  obtain ⟨_, six, write₂, rest⟩ := bind_eq_ok.mp rest
  rw [modify_bind] at rest
  obtain ⟨wf, whole, count⟩ := newFileHdr_wellFormed positive small
  obtain ⟨written, rfl⟩ := ensure_ok image
  rw [wf.image whole (by unfold intMax; omega)] at written
  cases written
  obtain ⟨dm₁, created, rfl⟩ := BufferPoolManager.createFile_ok create
  obtain ⟨dm₂, opened, rfl⟩ := BufferPoolManager.openFile_ok opening
  obtain ⟨dm₃, wrote₀, rfl⟩ := BufferPoolManager.writePage_ok write₀
  obtain ⟨dm₄, wrote₁, rfl⟩ := BufferPoolManager.writePage_ok write₁
  obtain ⟨dm₅, wrote₂, rfl⟩ := BufferPoolManager.writePage_ok write₂
  obtain ⟨dm₆, closed, rfl⟩ := BufferPoolManager.closeFile_ok rest
  obtain ⟨_, rfl⟩ := DiskManager.createFile_ok created
  obtain ⟨ino, named, _, _, free, rfl, rfl⟩ := DiskManager.openFile_ok opened
  obtain ⟨ino₀, atFd₀, _, rfl⟩ := DiskManager.writePage_ok wrote₀
  obtain ⟨ino₁, atFd₁, _, rfl⟩ := DiskManager.writePage_ok wrote₁
  obtain ⟨ino₂, atFd₂, _, rfl⟩ := DiskManager.writePage_ok wrote₂
  obtain ⟨path, _, toPath, _, rfl⟩ := DiskManager.closeFile_ok closed
  simp only [Function.update_self, Option.some.injEq] at named
  subst named
  simp only [setFile, Function.update_self, Option.some.injEq] at atFd₀ atFd₁ atFd₂
  subst atFd₀ atFd₁ atFd₂
  refine ⟨s.diskManager.os.nextInode, ?_, ?_, ?_⟩
  · simp only [PageStore.setFd2pageno, setFile, setFd2pageno, Function.update_self]
  · simp only [PageStore.setFd2pageno, setFile, setFd2pageno, Function.update_self, Option.some.injEq] at toPath
    subst toPath
    simp only [PageStore.setFd2pageno, setFile, setFd2pageno, Function.update_self]
  · simp only [PageStore.setFd2pageno, setFile, setFd2pageno, Function.update_self, Function.update_idem]
    rfl

theorem newFile_len (cols : List ColMeta) : 3 * PAGE_SIZE ≤ (newFile cols).len := by
  have whole : PAGE_SIZE ≠ 0 := by decide
  simp only [newFile, File.write, if_neg whole]
  omega

theorem page_leaves (cols : List ColMeta) :
    (newFile cols).page 1 = Block.ofPtr (leafPage IX_INIT_ROOT_PAGE IX_INIT_ROOT_PAGE) ∧
      (newFile cols).page 2 = Block.ofPtr (leafPage IX_LEAF_HEADER_PAGE IX_LEAF_HEADER_PAGE) := by
  constructor
  · rw [newFile, File.page_write_other _ _ (by decide) le_rfl, File.page_write_front, Block.poke_full]
  · rw [newFile, File.page_write_front, Block.poke_full]

/-- Page 0 keeps what of the header fits on it. -/
theorem page_header (cols : List ColMeta) : (newFile cols).page 0 =
    Block.zero.poke 0 (newFileHdr cols).totLen.toNat fun i => (newFileHdr cols).text.getD i 0 := by
  rw [newFile, File.page_write_other _ _ (by decide) le_rfl, File.page_write_other _ _ (by decide) le_rfl,
    File.page_write_front]
  rfl

/-- `open_index` up to the header that it reads from page 0. -/
theorem openIndex_header {ino : Nat} {h : IxIndexHandle} {u : BufferPoolManager N}
    (named : t.diskManager.os.inode (getIndexName filename cols) = some ino)
    (run : openIndex filename cols fd' t = .ok h u) :
    IxFileHdr.deserialize ((List.range PAGE_SIZE).map ((t.diskManager.os.file ino).page 0).peek) = .ok h.fileHdr := by
  obtain ⟨opened, one, first, made⟩ := bind_eq_ok.mp run
  obtain ⟨dm, opening, rfl⟩ := BufferPoolManager.openFile_ok first
  unfold IxIndexHandle.new at made
  obtain ⟨_, _, pointer, made⟩ := bind_eq_ok.mp made
  cases readPage_same pointer
  obtain ⟨_, _, reading, made⟩ := bind_eq_ok.mp made
  obtain ⟨buf, read, rfl, same⟩ := BufferPoolManager.readPage_ok reading
  cases same
  obtain ⟨hdr, _, parsing, made⟩ := bind_eq_ok.mp made
  obtain ⟨parsed, same⟩ := ensure_ok parsing
  cases same
  rw [get_bind] at made
  simp only at made
  split at made
  · cases made
  cases made
  obtain ⟨ino', named', _, _, _, rfl, rfl⟩ := DiskManager.openFile_ok opening
  obtain ⟨file, atFd, _, rfl⟩ := DiskManager.readPage_ok read
  rw [named] at named'
  cases named'
  simp only [fileOf, Function.update_self, Option.map_some, Option.some.injEq] at atFd
  subst atFd
  exact parsed

/-- Opened under another descriptor, the file is read back as its page 0 says. -/
theorem openIndex_reads {ino : Nat} {hdr : IxFileHdr}
    (named : t.diskManager.os.inode (getIndexName filename cols) = some ino)
    (closed : t.diskManager.path2fd (getIndexName filename cols) = none) (usable : Usable t.diskManager fd')
    (counter : t.counter fd' ≠ intMax) (long : PAGE_SIZE ≤ (t.diskManager.os.file ino).len)
    (parsed : IxFileHdr.deserialize ((List.range PAGE_SIZE).map ((t.diskManager.os.file ino).page 0).peek) = .ok hdr) :
    ∃ u, openIndex filename cols fd' t = .ok ⟨fd', hdr⟩ u ∧
      u.diskManager.fileOf fd' = some (t.diskManager.os.file ino) := by
  obtain ⟨dm, opening, _, fds, files, _, counters⟩ := openFile_runs named closed usable
  have atFd : dm.fileOf fd' = some (t.diskManager.os.file ino) := by
    simp only [fileOf, fds, files, Function.update_self, Option.map_some]
  have reading : ∀ n, n ≤ PAGE_SIZE → PageStore.readPage fd' IX_FILE_HDR_PAGE n { t with diskManager := dm } = .ok
      (Block.ofPtr fun i => (t.diskManager.os.file ino).byte (IX_FILE_HDR_PAGE.toNat * PAGE_SIZE + i) : Block n).peek
      { t with diskManager := dm } := by
    intro n small
    simp only [PageStore.readPage]
    rw [readPage_whole atFd (by decide) (by simp [IX_FILE_HDR_PAGE]; omega)]
  have page : PageStore.readPage fd' IX_FILE_HDR_PAGE PAGE_SIZE { t with diskManager := dm } =
      .ok ((t.diskManager.os.file ino).page 0).peek { t with diskManager := dm } := reading PAGE_SIZE le_rfl
  have parsing : ensure (IxFileHdr.deserialize ((List.range PAGE_SIZE).map ((t.diskManager.os.file ino).page 0).peek))
      { t with diskManager := dm } = .ok hdr { t with diskManager := dm } := by
    rw [parsed]
    rfl
  have counted : ¬dm.fd2pageno fd' = intMax := by rwa [counters]
  refine ⟨PageStore.setFd2pageno fd' (dm.fd2pageno fd' + 1) { t with diskManager := dm }, ?_, atFd⟩
  unfold openIndex
  rw [bind_ok opening]
  unfold IxIndexHandle.new
  rw [bind_ok (reading 8 (by decide)), bind_ok page, bind_ok parsing, get_bind]
  simp only [if_neg counted]
  rfl

/-- The header is read back from page 0 if and only if it fits on it. -/
theorem header_survives (positive : ∀ col ∈ cols, 0 < col.len) (small : (cols.map (·.len)).sum ≤ IX_MAX_COL_LEN) :
    IxFileHdr.deserialize ((List.range PAGE_SIZE).map ((newFile cols).page 0).peek) = .ok (newFileHdr cols) ↔
      cols.length ≤ 507 := by
  obtain ⟨wf, whole, count⟩ := newFileHdr_wellFormed positive small
  have length := IxFileHdr.length_text (newFileHdr cols)
  have words := wf.length_words
  have colNum : (newFileHdr cols).colNum = cols.length := rfl
  constructor
  · intro parsed
    have inside := IxFileHdr.deserialize_totLen parsed (by rw [List.length_map, List.length_range]; decide)
    rw [List.length_map, List.length_range, whole, PAGE_SIZE] at inside
    omega
  · intro few
    refine wf.deserialize whole (by unfold intMax; omega) (Buffer.Holds.of_pointer ?_ fun i inside => ?_)
    · rw [PAGE_SIZE]
      omega
    · rw [page_header, Block.peek_poke_inside _ _ (Nat.zero_le i) (by omega) (by rw [PAGE_SIZE]; omega), Nat.sub_zero]

end IxManager

/-- `create_index` accepts positive lengths up to the limit, where the file is new and the disk has room. -/
theorem createIndex_runs (positive : ∀ col ∈ cols, 0 < col.len) (small : (cols.map (·.len)).sum ≤ IX_MAX_COL_LEN)
    (missing : s.diskManager.os.inode (getIndexName filename cols) = none)
    (closed : s.diskManager.path2fd (getIndexName filename cols) = none) (usable : Usable s.diskManager fd)
    (room : ∀ k, 2 * PAGE_SIZE ≤ s.diskManager.os.room fd k) :
    ∃ t, createIndex filename cols fd fd s = .ok () t ∧ t.diskManager.os.fds = s.diskManager.os.fds ∧
      t.counter = Function.update s.counter fd 2 := by
  obtain ⟨wf, whole, count⟩ := newFileHdr_wellFormed positive small
  obtain ⟨total, _⟩ := sum_bounds positive
  obtain ⟨dm₁, created, named, closed₁, fds₁, room₁, counter₁⟩ := createFile_runs missing usable
  obtain ⟨dm₂, opened, named₂, fds₂, _, room₂, counter₂⟩ := openFile_runs (s := { s with diskManager := dm₁ }) named
    (by rw [closed₁]; exact closed) ⟨usable.1, by rw [fds₁]; exact usable.2⟩
  have atFd : dm₂.os.fds fd = some s.diskManager.os.nextInode := by rw [fds₂, Function.update_self]
  have space : ∀ k, 2 * PAGE_SIZE ≤ dm₂.os.room fd k := by
    rw [room₂, room₁]
    exact room
  obtain ⟨dm₃, wrote₀, named₃, fds₃, room₃, counter₃⟩ := writePage_runs (s := { s with diskManager := dm₂ })
    (n := (newFileHdr cols).totLen.toNat) (fun i => (newFileHdr cols).text.getD i 0) atFd
    (by decide : 0 ≤ IX_FILE_HDR_PAGE) (le_trans (by rw [PAGE_SIZE]; omega) (space _))
  obtain ⟨dm₄, wrote₁, named₄, fds₄, room₄, counter₄⟩ := writePage_runs (s := { s with diskManager := dm₃ })
    (n := PAGE_SIZE) (leafPage IX_INIT_ROOT_PAGE IX_INIT_ROOT_PAGE) (by rw [fds₃]; exact atFd)
    (by decide : 0 ≤ IX_LEAF_HEADER_PAGE) (by rw [room₃]; exact le_trans (by decide) (space _))
  obtain ⟨dm₅, wrote₂, named₅, fds₅, room₅, counter₅⟩ := writePage_runs (s := { s with diskManager := dm₄ })
    (n := PAGE_SIZE) (leafPage IX_LEAF_HEADER_PAGE IX_LEAF_HEADER_PAGE) (by rw [fds₄, fds₃]; exact atFd)
    (by decide : 0 ≤ IX_INIT_ROOT_PAGE) (by rw [room₄, room₃]; exact le_trans (by decide) (space _))
  obtain ⟨dm₆, shut, fds₆, counter₆⟩ := closeFile_runs
    (s := PageStore.setFd2pageno fd (IX_INIT_NUM_PAGES - 1) { s with diskManager := dm₅ })
    (show dm₅.fd2path fd = _ by rw [named₅, named₄, named₃]; exact named₂)
    (show dm₅.os.fds fd = _ by rw [fds₅, fds₄, fds₃]; exact atFd)
  obtain ⟨order, _⟩ := btreeOrder_bounds (v := (cols.map (·.len)).sum) (by omega) small
  have noWrap := colTotLen_eq positive small
  have image : (ensure (newFileHdr cols).image : PoolM N _) { s with diskManager := dm₂ } =
      .ok (newFileHdr cols).text { s with diskManager := dm₂ } := by
    rw [wf.image whole (by unfold intMax; omega)]
    rfl
  unfold IX_MAX_COL_LEN at small
  refine ⟨{ s with diskManager := dm₆ }, ?_, ?_, ?_⟩
  · unfold createIndex
    simp only [noWrap]
    rw [bind_ok created, bind_ok opened, if_neg (by unfold IX_MAX_COL_LEN; omega), if_neg (by omega),
      if_neg (by omega), bind_ok image, bind_ok wrote₀, bind_ok wrote₁, bind_ok wrote₂, modify_bind]
    exact shut
  · change dm₆.os.fds = _
    rw [fds₆]
    change Function.update dm₅.os.fds fd none = _
    rw [fds₅, fds₄, fds₃, fds₂]
    change Function.update (Function.update dm₁.os.fds fd _) fd none = _
    rw [Function.update_idem, fds₁, ← usable.2, Function.update_eq_self]
  · change dm₆.fd2pageno = _
    rw [counter₆]
    change Function.update dm₅.fd2pageno fd 2 = _
    rw [counter₅, counter₄, counter₃, counter₂]
    change Function.update dm₁.fd2pageno fd 2 = _
    rw [counter₁]

/-- Of an index that `create_index` has made, `open_index` reads back the header, and the leaf list is still the
empty one, if and only if the index has no more than 507 columns. -/
theorem index_survives_iff (run : createIndex filename cols made fd s = .ok () t) (positive : ∀ col ∈ cols, 0 < col.len)
    (small : (cols.map (·.len)).sum ≤ IX_MAX_COL_LEN) (nonneg : 0 ≤ fd') (free : t.diskManager.os.fds fd' = none)
    (counter : t.counter fd' ≠ intMax) :
    (∃ u, openIndex filename cols fd' t = .ok ⟨fd', newFileHdr cols⟩ u ∧
      u.diskManager.diskPage ⟨fd', IX_LEAF_HEADER_PAGE⟩ =
        Block.ofPtr (leafPage IX_INIT_ROOT_PAGE IX_INIT_ROOT_PAGE) ∧
      u.diskManager.diskPage ⟨fd', IX_INIT_ROOT_PAGE⟩ =
        Block.ofPtr (leafPage IX_LEAF_HEADER_PAGE IX_LEAF_HEADER_PAGE)) ↔ cols.length ≤ 507 := by
  obtain ⟨ino, named, closed, file⟩ := createIndex_ok run positive small
  rw [← header_survives positive small]
  constructor
  · rintro ⟨u, opened, _⟩
    rw [← file]
    exact openIndex_header named opened
  · intro parsed
    have len := newFile_len cols
    obtain ⟨u, opened, atFd⟩ := openIndex_reads named closed ⟨nonneg, free⟩ counter (by rw [file]; omega) (file ▸ parsed)
    obtain ⟨leaves, root⟩ := page_leaves cols
    refine ⟨u, opened, ?_, ?_⟩
    · simp only [diskPage, atFd, file]
      exact leaves
    · simp only [diskPage, atFd, file]
      exact root

/-- A key of two columns. -/
def pairCols : List ColMeta := [⟨"t", "a", .int, 4, 0, true⟩, ⟨"t", "b", .string, 8, 4, true⟩]

theorem index_survives_two : ∃ t u : BufferPoolManager 1,
    createIndex "t" pairCols 3 3 (.new Tables.noFiles fun _ => 0) = .ok () t ∧
      openIndex "t" pairCols 3 t = .ok ⟨3, newFileHdr pairCols⟩ u := by
  have made : createIndex "t" pairCols 3 3 (.new Tables.noFiles fun _ => 0) =
      .ok () (stateAfter (createIndex "t" pairCols 3 3) (.new Tables.noFiles fun _ => 0) : BufferPoolManager 1) :=
    run_of_value (by decide +kernel)
  obtain ⟨u, opened, _⟩ := (index_survives_iff made (by decide) (by decide) (by decide : (0 : Int) ≤ 3)
    (by decide +kernel) (by decide +kernel)).mpr (by decide)
  exact ⟨_, u, made, opened⟩

/-- Columns of type CHAR(1). -/
def narrowCols (n : Nat) : List ColMeta :=
  (List.range n).map fun i : Nat => ⟨"t", "c" ++ toString i, .string, 1, (i : Int), true⟩

/-- A disk without files that takes two pages in one write. -/
def roomyDisk : DiskManager := ⟨fun _ => none, fun _ => none, fun _ => 0,
  fun _ => none, fun _ => none, fun _ => File.empty, 0, fun _ _ => 2 * PAGE_SIZE⟩

theorem narrowCols_lengths (n : Nat) : (∀ col ∈ narrowCols n, 0 < col.len) ∧ ((narrowCols n).map (·.len)).sum = n := by
  constructor
  · intro col member
    obtain ⟨_, _, rfl⟩ := List.mem_map.mp member
    exact Int.one_pos
  · simp [narrowCols, Function.comp_def]

/-- With 508 columns the header takes 4104 bytes, and page 1 is written over the last eight. -/
theorem index_survives_508 : ¬∀ (s t : BufferPoolManager 1) (filename : String) (cols : List ColMeta) (fd fd' : Int),
    createIndex filename cols fd fd s = .ok () t → (∀ col ∈ cols, 0 < col.len) →
    (cols.map (·.len)).sum ≤ IX_MAX_COL_LEN → 0 ≤ fd' →
    t.diskManager.os.fds fd' = none → t.counter fd' ≠ intMax →
    ∃ u, openIndex filename cols fd' t = .ok ⟨fd', newFileHdr cols⟩ u := by
  intro survives
  obtain ⟨positive, sum⟩ := narrowCols_lengths 508
  have small : ((narrowCols 508).map (·.len)).sum ≤ IX_MAX_COL_LEN := by
    rw [sum]
    decide
  obtain ⟨t, run, fds, counter⟩ :
      ∃ t, createIndex "t" (narrowCols 508) 3 3 (.new roomyDisk fun _ => 0) = .ok () t ∧ _ ∧ _ :=
    createIndex_runs positive small rfl rfl ⟨by decide, rfl⟩ fun _ => le_rfl
  obtain ⟨u, opened⟩ := survives _ t "t" (narrowCols 508) 3 4 run positive small (by decide) (by rw [fds]; rfl)
    (by rw [counter]; decide)
  obtain ⟨ino, named, _, file⟩ := createIndex_ok run positive small
  have parsed := openIndex_header named opened
  rw [file] at parsed
  have few := (header_survives positive small).mp parsed
  rw [narrowCols, List.length_map, List.length_range] at few
  exact absurd few (by decide)

end Rmdb

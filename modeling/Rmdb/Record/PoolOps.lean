import Rmdb.Record.PoolFile

namespace Rmdb
open RmFile RmFileHandle RmPageHandle BufferPoolManager
variable {N : Nat} {live : Int → Prop} {fd₀ : Int} {w₀ : World Unit N}

/-- The calls through an open handle, and what they give back. -/
inductive RecordOp
  | getRecord (rid : Rid)
  | isRecord (rid : Rid)
  | insertRecord (buf : Nat → UInt8)
  | deleteRecord (rid : Rid)
  | updateRecord (rid : Rid) (buf : Nat → UInt8)
  | scan
  | scanNext (position : RmScan)

inductive RecordReply
  | record (r : Option RmRecord)
  | flag (b : Bool)
  | rid (r : Rid)
  | done
  | scan (position : RmScan)
  deriving DecidableEq

namespace RecordOp

def run {σ φ : Type} [PageStore σ φ] : RecordOp → RmM σ RecordReply
  | .getRecord rid => .record <$> RmFileHandle.getRecord rid
  | .isRecord rid => .flag <$> RmFileHandle.isRecord rid
  | .insertRecord buf => .rid <$> RmFileHandle.insertRecord buf
  | .deleteRecord rid => (fun _ => .done) <$> RmFileHandle.deleteRecord rid
  | .updateRecord rid buf => (fun _ => .done) <$> RmFileHandle.updateRecord rid buf
  | .scan => .scan <$> RmScan.new
  | .scanNext position => .scan <$> position.next

/-- The caller names records outside the header page by slots the page has. -/
def Addresses (h : RmFileHdr) : RecordOp → Prop
  | .getRecord rid | .isRecord rid | .deleteRecord rid | .updateRecord rid _ =>
    rid.pageNo ≠ RM_FILE_HDR_PAGE ∧ 0 ≤ rid.slotNo ∧ rid.slotNo < h.numRecordsPerPage
  | .scanNext position => position.rid.pageNo ≠ RM_FILE_HDR_PAGE
  | .insertRecord _ | .scan => True

end RecordOp

/-- Equal results, and nothing on the way. -/
def Same (live : Int → Prop) (fd₀ : Int) (w₀ : World Unit N) {α : Type} (a b : α) (s : RmFile (BufferPoolManager N))
    (t : RmFile FlatFile) : Prop := a = b ∧ Idle live fd₀ w₀ s t

theorem Same.map {α β : Type} {x : RmM (BufferPoolManager N) α} {y : RmM FlatFile α} (g : α → β)
    (refines : Refines (Ready live fd₀ w₀) x y (Same live fd₀ w₀)) :
    Refines (Ready live fd₀ w₀) (g <$> x) (g <$> y) (Same live fd₀ w₀) := by
  intro s t b s' ready run
  obtain ⟨a, runX, rfl⟩ := map_eq_ok.mp run
  obtain ⟨a', t', runY, rfl, idle⟩ := refines s t a s' ready runX
  exact ⟨g a, t', map_eq_ok.mpr ⟨a, runY, rfl⟩, rfl, idle⟩

theorem fetchReady_refines {k : Int} (notHeader : k ≠ RM_FILE_HDR_PAGE) :
    Refines (Ready live fd₀ w₀) (fetchPageHandle k) (fetchPageHandle k) (Held live fd₀ w₀ false) :=
  (fetch_refines notHeader).weaken (fun _ _ ready => ⟨ready.1, ready.2.counter⟩) fun _ _ _ _ held => held

section rid
variable {rid : Rid} (notHeader : rid.pageNo ≠ RM_FILE_HDR_PAGE)
include notHeader

theorem isRecord_refines : Refines (Ready live fd₀ w₀) (isRecord rid) (isRecord rid) (Same live fd₀ w₀) := by
  refine Refines.bind (fetchReady_refines notHeader) fun f p => Refines.get fun s t held => ?_
  obtain ⟨bytes, _⟩ := held.sees
  rw [bytes]
  refine Refines.bind (require_refines Iff.rfl) fun _ _ => Refines.pure fun s' t' rel => ⟨rfl, ?_⟩
  exact rel.1.leave

theorem getRecord_refines : Refines (Ready live fd₀ w₀) (getRecord rid) (getRecord rid) (Same live fd₀ w₀) := by
  refine Refines.bind (fetchReady_refines notHeader) fun f p => Refines.get fun s t held => ?_
  obtain ⟨bytes, _⟩ := held.sees
  rw [bytes, held.hdr_eq]
  refine Refines.bind (require_refines Iff.rfl) fun _ _ => Refines.ite Iff.rfl (fun _ => ?_) fun _ => ?_
  · exact Refines.bind (require_refines Iff.rfl) fun _ _ => Refines.pure fun s' t' rel => ⟨rfl, rel.1.leave⟩
  · exact Refines.pure fun s' t' rel => ⟨rfl, rel.1.leave⟩

omit notHeader in
/-- The end of a call that changed a page: it is released dirty. -/
theorem release_refines {α : Type} {m : Bool} {f : Fin N} {p : PageId} (g : PageId → α) :
    Refines (Held live fd₀ w₀ m f p)
      (do
        let s ← get
        let _ ← onStore (PageStore.unpinPage (PageStore.pageId s.store f) true)
        return g (PageStore.pageId s.store f))
      (do
        let t ← get
        let _ ← onStore (PageStore.unpinPage (PageStore.pageId t.store p) true)
        return g (PageStore.pageId t.store p))
      (Same live fd₀ w₀) := by
  refine Refines.get fun s t held => ?_
  obtain ⟨_, atPage, _⟩ := held.sees
  rw [atPage]
  refine Refines.bind (Q := fun _ _ => Idle live fd₀ w₀) ?_ fun _ _ => Refines.pure fun s' t' idle => ⟨rfl, idle⟩
  exact (unpin_refines (fun _ => rfl) rfl).weaken (fun _ _ rel => rel.1) fun _ _ _ _ idle => idle

theorem updateRecord_refines (buf : Nat → UInt8) :
    Refines (Ready live fd₀ w₀) (updateRecord rid buf) (updateRecord rid buf) (Same live fd₀ w₀) := by
  refine Refines.bind (fetchReady_refines notHeader) fun f p => Refines.get fun s t held => ?_
  obtain ⟨bytes, _⟩ := held.sees
  rw [bytes, held.hdr_eq]
  refine Refines.bind (require_refines Iff.rfl) fun _ _ => Refines.ite Iff.rfl (fun _ => ?_) fun _ => ?_
  · refine Refines.bind (require_refines Iff.rfl) fun _ _ => ?_
    refine Refines.bind ((modifyPage_refines rfl).weaken (fun _ _ rel => rel.1) fun _ _ _ _ held => held) fun _ _ => ?_
    exact release_refines fun _ => PUnit.unit
  · exact Refines.pure fun s' t' rel => ⟨rfl, rel.1.leave⟩

omit notHeader in
theorem releasePageHandle_refines {m : Bool} {f : Fin N} {p : PageId} :
    Refines (Held live fd₀ w₀ m f p) (releasePageHandle f) (releasePageHandle p) fun _ _ =>
        Held live fd₀ w₀ true f p := by
  refine Refines.get fun s t held => ?_
  rw [held.hdr_eq]
  refine Refines.bind ((modifyPage_refines rfl).weaken (fun _ _ rel => rel.1) fun _ _ _ _ held => held) fun _ _ => ?_
  refine Refines.modify fun s t held => ?_
  obtain ⟨_, atPage, _⟩ := held.sees
  refine held.setHdr ?_
  rw [held.hdr_eq, atPage]
  rfl

theorem deleteRecord_refines :
    Refines (Ready live fd₀ w₀) (deleteRecord rid) (deleteRecord rid) (Same live fd₀ w₀) := by
  refine Refines.bind (fetchReady_refines notHeader) fun f p => Refines.get fun s t held => ?_
  obtain ⟨bytes, _⟩ := held.sees
  rw [bytes, held.hdr_eq]
  refine Refines.bind (require_refines Iff.rfl) fun _ _ => Refines.ite Iff.rfl (fun _ => ?_) fun _ => ?_
  · refine Refines.bind ((modifyPage_refines rfl).weaken (fun _ _ rel => rel.1) fun _ _ _ _ held => held) fun _ _ => ?_
    refine Refines.ite Iff.rfl (fun _ => ?_) fun _ => ?_
    · exact Refines.bind releasePageHandle_refines fun _ _ => release_refines fun _ => PUnit.unit
    · exact release_refines fun _ => PUnit.unit
  · exact Refines.pure fun s' t' rel => ⟨rfl, rel.1.leave⟩

end rid

theorem insertRecord_refines (buf : Nat → UInt8) :
    Refines (Ready live fd₀ w₀) (insertRecord buf) (insertRecord buf) (Same live fd₀ w₀) := by
  refine Refines.bind createPageHandle_refines fun f p => Refines.get fun s t held => ?_
  obtain ⟨bytes, _⟩ := held.sees
  rw [bytes, held.hdr_eq]
  refine Refines.bind (require_refines Iff.rfl) fun _ _ => ?_
  refine Refines.bind ((modifyPage_refines rfl).weaken (fun _ _ rel => rel.1) fun _ _ _ _ held => held) fun _ _ => ?_
  refine Refines.bind (Q := fun _ _ => Held live fd₀ w₀ true f p) (Refines.modify fun s t held => ?_) fun _ _ => ?_
  · obtain ⟨bytes, _⟩ := held.sees
    rw [bytes, held.hdr_eq]
    split
    · exact held.setHdr rfl
    · exact held
  · exact release_refines fun page => Rid.mk page.pageNo
      (Bitmap.firstBit false (t.page p) bitmap s.hdr.numRecordsPerPage)

/-- A page that is only looked at leaves the flat file as it was. -/
theorem look_refines {k : Int} (notHeader : k ≠ RM_FILE_HDR_PAGE) :
    Refines (Ready live fd₀ w₀) (fetchPageHandle k) (fetchPageHandle k)
      fun f p s t => Held live fd₀ w₀ false f p s t ∧ t.FileInv ∧ 0 ≤ k := by
  intro s t f s' ready run
  obtain ⟨p, t', flat, held⟩ := fetchReady_refines notHeader s t f s' ready run
  refine ⟨p, t', flat, held, ?_⟩
  rw [fetchPageHandle_flat] at flat
  split at flat
  · cases flat
  · split at flat
    · cases flat
    · cases flat
      exact ⟨ready.2, by omega⟩

theorem unlook_refines {f : Fin N} {p : PageId} :
    Refines (fun s t => Held live fd₀ w₀ false f p s t ∧ t.FileInv) (onStore (PageStore.unpinPage p false))
      (onStore (PageStore.unpinPage p false)) fun _ _ => Ready live fd₀ w₀ := by
  rintro s t r s' ⟨held, inv⟩ run
  obtain ⟨b, t', flat, idle⟩ := unpin_refines (fun h => h) rfl s t r s' held run
  cases flat
  exact ⟨true, t, rfl, idle, inv⟩

/-- The loop of the scan, page by page. -/
theorem nextFrom_refines (pages : Nat) {rid : Rid} (notHeader : rid.pageNo ≠ RM_FILE_HDR_PAGE) :
    Refines (Ready live fd₀ w₀) (RmScan.nextFrom pages rid) (RmScan.nextFrom pages rid) (Same live fd₀ w₀) := by
  induction pages generalizing rid with
  | zero => exact Refines.pure fun s t ready => ⟨rfl, ready.1⟩
  | succ pages ih =>
    refine Refines.bind (look_refines notHeader) fun f p => Refines.get fun s t rel => ?_
    obtain ⟨held, _, nonneg⟩ := rel
    obtain ⟨bytes, atPage, _⟩ := held.sees
    have later : rid.pageNo + 1 ≠ RM_FILE_HDR_PAGE := by
      unfold RM_FILE_HDR_PAGE
      omega
    rw [bytes, held.hdr_eq, atPage]
    refine Refines.bind (unlook_refines.weaken (fun _ _ rel => ⟨rel.1.1, rel.1.2.1⟩) fun _ _ _ _ ready => ready) ?_
    intro _ _
    refine Refines.ite Iff.rfl (fun _ => ?_) fun _ => ih later
    exact Refines.pure fun s' t' ready => ⟨rfl, ready.1⟩

theorem next_refines {position : RmScan} (notHeader : position.rid.pageNo ≠ RM_FILE_HDR_PAGE) :
    Refines (Ready live fd₀ w₀) position.next position.next (Same live fd₀ w₀) := by
  refine Refines.get fun s t ready => ?_
  rw [ready.hdr_eq]
  exact (nextFrom_refines _ notHeader).weaken (fun _ _ rel => rel.1) fun _ _ _ _ same => same

/-- Every call through the pool gives the reply it gives on the handle's own file. -/
theorem RecordOp.refines (op : RecordOp) {h : RmFileHdr} (addresses : op.Addresses h) :
    Refines (Ready live fd₀ w₀) (op.run (σ := BufferPoolManager N)) (op.run (σ := FlatFile)) (Same live fd₀ w₀) := by
  cases op with
  | getRecord rid => exact Same.map _ (getRecord_refines addresses.1)
  | isRecord rid => exact Same.map _ (isRecord_refines addresses.1)
  | insertRecord buf => exact Same.map _ (insertRecord_refines buf)
  | deleteRecord rid =>
    intro s t b s' ready run
    obtain ⟨a, runX, rfl⟩ := map_eq_ok.mp run
    obtain ⟨a', t', runY, _, idle⟩ := deleteRecord_refines addresses.1 s t a s' ready runX
    exact ⟨_, t', map_eq_ok.mpr ⟨a', runY, rfl⟩, rfl, idle⟩
  | updateRecord rid buf =>
    intro s t b s' ready run
    obtain ⟨a, runX, rfl⟩ := map_eq_ok.mp run
    obtain ⟨a', t', runY, _, idle⟩ := updateRecord_refines addresses.1 buf s t a s' ready runX
    exact ⟨_, t', map_eq_ok.mpr ⟨a', runY, rfl⟩, rfl, idle⟩
  | scan => exact Same.map _ (next_refines (by decide))
  | scanNext position => exact Same.map _ (next_refines addresses)

/-- A scan changes nothing. -/
theorem nextFrom_same (pages : Nat) {rid : Rid} {t t' : RmFile FlatFile} {r : RmScan}
    (run : RmScan.nextFrom pages rid t = .ok r t') : t' = t := by
  induction pages generalizing rid with
  | zero =>
    cases run
    rfl
  | succ pages ih =>
    obtain ⟨p, u, fetched, rest⟩ := bind_eq_ok.mp run
    rw [fetchPageHandle_flat] at fetched
    split at fetched
    · cases fetched
    · split at fetched
      · cases fetched
      · cases fetched
        rw [get_bind] at rest
        obtain ⟨_, v, unpinned, rest⟩ := bind_eq_ok.mp rest
        cases unpinned
        split at rest
        · cases rest
          rfl
        · exact ih rest

/-- And it keeps the invariant of that file. -/
theorem RecordOp.fileInv (op : RecordOp) {t t' : RmFile FlatFile} {r : RecordReply} (inv : t.FileInv)
    (addresses : op.Addresses t.hdr) (run : op.run t = .ok r t') : t'.FileInv := by
  cases op with
  | insertRecord buf =>
    obtain ⟨rid, call, _⟩ := map_eq_ok.mp run
    exact inv.finishes_insert (Or.inl ⟨rid, call⟩)
  | deleteRecord rid =>
    obtain ⟨u, call, _⟩ := map_eq_ok.mp run
    exact inv.finishes_delete (Or.inl addresses) (Or.inl ⟨u, call⟩)
  | updateRecord rid buf =>
    obtain ⟨u, call, _⟩ := map_eq_ok.mp run
    exact inv.finishes_update (Or.inl addresses) (Or.inl ⟨u, call⟩)
  | getRecord rid =>
    obtain ⟨a, call, _⟩ := map_eq_ok.mp run
    rcases Addressable.cases addresses with range | ⟨e, refused⟩
    · rw [inv.getRecord range] at call
      cases call
      exact inv
    · rw [show RmFileHandle.getRecord rid t = .error e t from bind_error refused] at call
      cases call
  | isRecord rid =>
    obtain ⟨a, call, _⟩ := map_eq_ok.mp run
    rcases Addressable.cases addresses with range | ⟨e, refused⟩
    · rw [inv.isRecord range] at call
      cases call
      exact inv
    · rw [show RmFileHandle.isRecord rid t = .error e t from bind_error refused] at call
      cases call
  | scan =>
    obtain ⟨a, call, _⟩ := map_eq_ok.mp run
    rw [nextFrom_same _ call]
    exact inv
  | scanNext position =>
    obtain ⟨a, call, _⟩ := map_eq_ok.mp run
    rw [nextFrom_same _ call]
    exact inv

end Rmdb

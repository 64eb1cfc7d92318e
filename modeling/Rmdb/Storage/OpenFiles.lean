import Rmdb.Kit.Inverse
import Rmdb.Kit.Result
import Rmdb.Storage.Files

/-! The calls of `DiskManager` on whole files, step by step. The operating system comes in
through the descriptor it has for an `open` and the permission it gives to an `unlink`. -/

namespace Rmdb.OpenFiles
open DiskManager (Usable)
variable {dm dm' : DiskManager} {path : String} {fd out : Int} {permitted : Bool} {e : Error}

/-- A call that may change the tables and the files. -/
abbrev DiskM := EStateM Error DiskManager

/-- `open(path, O_CREAT | O_EXCL | O_WRONLY)`. -/
def sysCreate (path : String) (fd : Int) : DiskM Int := fun dm =>
  if dm.os.inode path = none ∧ Usable dm fd then
    .ok fd { dm with os := { dm.os with
      inode := Function.update dm.os.inode path (some dm.os.nextInode)
      file := Function.update dm.os.file dm.os.nextInode File.empty
      nextInode := dm.os.nextInode + 1
      fds := Function.update dm.os.fds fd (some dm.os.nextInode) } }
  else .ok (-1) dm

/-- `open(path, O_RDWR)`. -/
def sysOpen (path : String) (fd : Int) : DiskM Int := fun dm =>
  match dm.os.inode path with
  | none => .ok (-1) dm
  | some ino =>
    if Usable dm fd then .ok fd { dm with os := { dm.os with fds := Function.update dm.os.fds fd (some ino) } }
    else .ok (-1) dm

/-- `close`, which fails on a descriptor that is not open. -/
def sysClose (fd : Int) : DiskM Int := fun dm =>
  if (dm.os.fds fd).isSome then .ok 0 { dm with os := { dm.os with fds := Function.update dm.os.fds fd none } }
  else .ok (-1) dm

/-- `unlink`: the name goes, the contents of files that others have open stay. -/
def sysUnlink (path : String) (permitted : Bool) : DiskM Int := fun dm =>
  if permitted then .ok 0 { dm with os := { dm.os with inode := Function.update dm.os.inode path none } }
  else .ok (-1) dm

def createFile (path : String) (fd : Int) : DiskM Unit := do
  let dm ← get
  if dm.isFile path then throw (.fileExists path)
  else
    let out ← sysCreate path fd
    if out = -1 then throw .unix
    else
      let _ ← sysClose out
      return ()

def destroyFile (path : String) (permitted : Bool) : DiskM Unit := do
  let dm ← get
  if !dm.isFile path then throw (.fileNotFound path)
  else if (dm.path2fd path).isSome then throw (.fileNotClosed path)
  else
    let out ← sysUnlink path permitted
    if out = -1 then throw .unix else return ()

def openFile (path : String) (fd : Int) : DiskM Int := do
  let dm ← get
  if !dm.isFile path then throw (.fileNotFound path)
  else if (dm.path2fd path).isSome then throw (.fileExists path)
  else
    let out ← sysOpen path fd
    if out = -1 then throw .unix
    else
      modify fun dm => { dm with path2fd := Function.update dm.path2fd path (some out) }
      modify fun dm => { dm with fd2path := Function.update dm.fd2path out (some path) }
      return out

def closeFile (fd : Int) : DiskM Unit := do
  let dm ← get
  match dm.fd2path fd with
  | none => throw (.fileNotOpen fd)
  | some path =>
    let out ← sysClose fd
    if out = -1 then throw .unix
    else
      modify fun dm => { dm with fd2path := Function.update dm.fd2path fd none }
      modify fun dm => { dm with path2fd := Function.update dm.path2fd path none }

def getFileName (fd : Int) : DiskM String := do
  let dm ← get
  match dm.fd2path fd with
  | none => throw (.fileNotOpen fd)
  | some path => return path

def getFileFd (path : String) (fd : Int) : DiskM Int := do
  let dm ← get
  match dm.path2fd path with
  | none => openFile path fd
  | some fd => return fd

/-! Each call is the one of the same name in `Except` form, which leaves the manager as it
was when it throws. -/

/-- A call in `Except` form as a step. -/
def ofExcept {α : Type} (x : Except Error (α × DiskManager)) : DiskM α := fun dm =>
  match x with
  | .ok (a, dm') => .ok a dm'
  | .error e => .error e dm

theorem ofExcept_ok {α : Type} {x : Except Error (α × DiskManager)} {a : α} (run : ofExcept x dm = .ok a dm') :
    x = .ok (a, dm') := by
  unfold ofExcept at run
  split at run
  · cases run
    rfl
  · cases run

/-- A call that returns nothing but the manager. -/
theorem ofExcept_done {x : Except Error DiskManager} {u : Unit}
    (run : ofExcept (x.map fun dm' => ((), dm')) dm = .ok u dm') : x = .ok dm' := by
  have made := ofExcept_ok run
  cases x with
  | error e => cases made
  | ok t =>
    cases made
    rfl

theorem ofExcept_error {α : Type} {x : Except Error (α × DiskManager)} (run : ofExcept x dm = .error e dm') :
    dm' = dm := by
  unfold ofExcept at run
  split at run
  · cases run
  · cases run
    rfl

theorem sysClose_ok {ino : Nat} (isOpen : dm.os.fds fd = some ino) :
    sysClose fd dm = .ok 0 { dm with os := { dm.os with fds := Function.update dm.os.fds fd none } } :=
  if_pos (by rw [isOpen]; rfl)

theorem createFile_eq (path : String) (fd : Int) (dm : DiskManager) : createFile path fd dm =
    ofExcept ((dm.createFile path fd).map fun dm' => ((), dm')) dm := by
  unfold createFile DiskManager.createFile
  rw [get_bind]
  cases isFile : dm.isFile path with
  | true => rfl
  | false =>
    have missing : dm.os.inode path = none := by simpa [DiskManager.isFile] using isFile
    by_cases usable : Usable dm fd
    · obtain ⟨nonneg, free⟩ := usable
      have created : sysCreate path fd dm = .ok fd _ := if_pos ⟨missing, nonneg, free⟩
      simp only [Bool.false_eq_true, if_false]
      rw [bind_ok created, if_neg (by omega)]
      rw [bind_ok (sysClose_ok (Function.update_self ..)), if_neg (not_not.mpr ⟨nonneg, free⟩)]
      have closed : Function.update (Function.update dm.os.fds fd (some dm.os.nextInode)) fd none = dm.os.fds := by
        rw [Function.update_idem, ← free, Function.update_eq_self]
      simp only [closed]
      rfl
    · have refused : sysCreate path fd dm = .ok (-1) dm := if_neg fun rest => usable rest.2
      simp only [Bool.false_eq_true, if_false]
      rw [bind_ok refused, if_pos rfl, if_pos usable]
      rfl

theorem destroyFile_eq (path : String) (permitted : Bool) (dm : DiskManager) : destroyFile path permitted dm =
    ofExcept ((dm.destroyFile path permitted).map fun dm' => ((), dm')) dm := by
  unfold destroyFile DiskManager.destroyFile
  rw [get_bind]
  cases isFile : dm.isFile path with
  | false => rfl
  | true =>
    cases isOpen : dm.path2fd path with
    | some fd => rfl
    | none => cases permitted <;> rfl

theorem openFile_eq (path : String) (fd : Int) (dm : DiskManager) :
    openFile path fd dm = ofExcept (dm.openFile path fd) dm := by
  unfold openFile DiskManager.openFile DiskManager.isFile
  rw [get_bind]
  cases named : dm.os.inode path with
  | none => rfl
  | some ino =>
    cases isOpen : dm.path2fd path with
    | some other => rfl
    | none =>
      have answer : sysOpen path fd dm = if Usable dm fd then
          .ok fd { dm with os := { dm.os with fds := Function.update dm.os.fds fd (some ino) } }
          else .ok (-1) dm := by
        unfold sysOpen
        rw [named]
      by_cases usable : Usable dm fd
      · rw [if_pos usable] at answer
        simp only [Option.isSome_some, Option.isSome_none, Bool.not_true, Bool.false_eq_true, if_false]
        rw [bind_ok answer, if_neg (by have := usable.1; omega), if_neg (not_not.mpr usable)]
        rfl
      · rw [if_neg usable] at answer
        simp only [Option.isSome_some, Option.isSome_none, Bool.not_true, Bool.false_eq_true, if_false]
        rw [bind_ok answer, if_pos rfl, if_pos usable]
        rfl

theorem closeFile_eq (fd : Int) (dm : DiskManager) :
    closeFile fd dm = ofExcept ((dm.closeFile fd).map fun dm' => ((), dm')) dm := by
  unfold closeFile DiskManager.closeFile
  rw [get_bind]
  cases named : dm.fd2path fd with
  | none => rfl
  | some path =>
    cases isOpen : dm.os.fds fd with
    | some ino =>
      dsimp only
      rw [bind_ok (sysClose_ok isOpen)]
      rfl
    | none =>
      have refused : sysClose fd dm = .ok (-1) dm := if_neg (by rw [isOpen]; nofun)
      dsimp only
      rw [bind_ok refused, if_pos rfl]
      rfl

theorem createFile_ok {u : Unit} (run : createFile path fd dm = .ok u dm') : dm.createFile path fd = .ok dm' := by
  rw [createFile_eq] at run
  exact ofExcept_done run

theorem destroyFile_ok {u : Unit} (run : destroyFile path permitted dm = .ok u dm') :
    dm.destroyFile path permitted = .ok dm' := by
  rw [destroyFile_eq] at run
  exact ofExcept_done run

theorem openFile_ok (run : openFile path fd dm = .ok out dm') : dm.openFile path fd = .ok (out, dm') := by
  rw [openFile_eq] at run
  exact ofExcept_ok run

theorem closeFile_ok {u : Unit} (run : closeFile fd dm = .ok u dm') : dm.closeFile fd = .ok dm' := by
  rw [closeFile_eq] at run
  exact ofExcept_done run

theorem getFileName_ok {name : String} (run : getFileName fd dm = .ok name dm') : dm' = dm := by
  unfold getFileName at run
  rw [get_bind] at run
  cases named : dm.fd2path fd with
  | none =>
    rw [named] at run
    cases run
  | some path =>
    rw [named] at run
    cases run
    rfl

/-- A name that is open is answered from the table; any other is opened. -/
theorem getFileFd_ok (run : getFileFd path fd dm = .ok out dm') :
    (dm.path2fd path = some out ∧ dm' = dm) ∨ dm.openFile path fd = .ok (out, dm') := by
  unfold getFileFd at run
  rw [get_bind] at run
  cases isOpen : dm.path2fd path with
  | none =>
    rw [isOpen] at run
    exact Or.inr (openFile_ok run)
  | some fd' =>
    rw [isOpen] at run
    cases run
    exact Or.inl ⟨rfl, rfl⟩

/-! Runs of calls, with what came of each. -/

inductive FileCall
  | createFile (path : String) (fd : Int)
  | destroyFile (path : String) (permitted : Bool)
  | openFile (path : String) (fd : Int)
  | closeFile (fd : Int)
  | getFileName (fd : Int)
  | getFileFd (path : String) (fd : Int)

inductive Reply
  | done
  | descriptor (fd : Int)
  | name (path : String)
  deriving DecidableEq

def call : FileCall → DiskM Reply
  | .createFile path fd => (fun _ => .done) <$> createFile path fd
  | .destroyFile path permitted => (fun _ => .done) <$> destroyFile path permitted
  | .openFile path fd => .descriptor <$> openFile path fd
  | .closeFile fd => (fun _ => .done) <$> closeFile fd
  | .getFileName fd => .name <$> getFileName fd
  | .getFileFd path fd => .descriptor <$> getFileFd path fd

/-- No exception leaves anything changed. -/
theorem call_error {c : FileCall} (run : call c dm = .error e dm') : dm' = dm := by
  cases c with
  | createFile path fd =>
    have thrown := map_eq_error.mp run
    rw [createFile_eq] at thrown
    exact ofExcept_error thrown
  | destroyFile path permitted =>
    have thrown := map_eq_error.mp run
    rw [destroyFile_eq] at thrown
    exact ofExcept_error thrown
  | openFile path fd =>
    have thrown := map_eq_error.mp run
    rw [openFile_eq] at thrown
    exact ofExcept_error thrown
  | closeFile fd =>
    have thrown := map_eq_error.mp run
    rw [closeFile_eq] at thrown
    exact ofExcept_error thrown
  | getFileName fd =>
    have thrown := map_eq_error.mp run
    unfold getFileName at thrown
    rw [get_bind] at thrown
    cases named : dm.fd2path fd with
    | none =>
      rw [named] at thrown
      cases thrown
      rfl
    | some path =>
      rw [named] at thrown
      cases thrown
  | getFileFd path fd =>
    have thrown := map_eq_error.mp run
    unfold getFileFd at thrown
    rw [get_bind] at thrown
    cases isOpen : dm.path2fd path with
    | none =>
      rw [isOpen] at thrown
      change openFile path fd dm = _ at thrown
      rw [openFile_eq] at thrown
      exact ofExcept_error thrown
    | some fd' =>
      rw [isOpen] at thrown
      cases thrown

/-- The calls made so far and their replies or exceptions, the latest first. -/
abbrev Log := List (FileCall × Except Error Reply)

/-- The constructor: nothing is open under the manager, whatever else the system has open. -/
def new (os : Os) : DiskManager := ⟨fun _ => none, fun _ => none, fun _ => 0, os⟩

inductive Run (os : Os) : Log → DiskManager → Prop
  | new : Run os [] (new os)
  | returned {log : Log} {dm dm' : DiskManager} {c : FileCall} {r : Reply} : Run os log dm →
      call c dm = .ok r dm' → Run os ((c, .ok r) :: log) dm'
  | threw {log : Log} {dm dm' : DiskManager} {c : FileCall} {e : Error} : Run os log dm →
      call c dm = .error e dm' → Run os ((c, .error e) :: log) dm'

/-- The files opened and not yet closed, as the log tells them. -/
def openList : Log → List (String × Int)
  | [] => []
  | (.openFile path _, .ok (.descriptor fd)) :: log => (path, fd) :: openList log
  | (.getFileFd path _, .ok (.descriptor fd)) :: log =>
    if path ∈ (openList log).map Prod.fst then openList log else (path, fd) :: openList log
  | (.closeFile fd, .ok _) :: log => (openList log).filter fun entry => entry.2 ≠ fd
  | _ :: log => openList log

/-- The tables are inverse to each other, and what they list is open on the file of that name. -/
structure Tracked (dm : DiskManager) (l : List (String × Int)) : Prop where
  inverse : Inverse dm.path2fd dm.fd2path l
  opened : ∀ path fd, (path, fd) ∈ l → ∃ ino, dm.os.fds fd = some ino ∧ dm.os.inode path = some ino

namespace Tracked
variable {l : List (String × Int)}

theorem unlisted (tracked : Tracked dm l) (free : dm.os.fds fd = none) : dm.fd2path fd = none := by
  by_contra listed
  obtain ⟨path, toPath⟩ := Option.ne_none_iff_exists'.mp listed
  obtain ⟨ino, isOpen, _⟩ := tracked.opened path fd ((tracked.inverse.back path fd).mp toPath)
  rw [free] at isOpen
  cases isOpen

theorem new (os : Os) : Tracked (new os) [] :=
  ⟨Inverse.empty, fun _ _ listed => nomatch listed⟩

theorem create (tracked : Tracked dm l) (run : dm.createFile path fd = .ok dm') : Tracked dm' l := by
  obtain ⟨missing, rfl⟩ := DiskManager.createFile_ok run
  refine ⟨tracked.inverse, fun other fd listed => ?_⟩
  obtain ⟨ino, isOpen, named⟩ := tracked.opened other fd listed
  refine ⟨ino, isOpen, ?_⟩
  have different : other ≠ path := by
    rintro rfl
    rw [missing] at named
    cases named
  exact (Function.update_of_ne different ..).trans named

theorem destroy (tracked : Tracked dm l) (run : dm.destroyFile path permitted = .ok dm') : Tracked dm' l := by
  obtain ⟨closed, rfl⟩ := DiskManager.destroyFile_ok run
  refine ⟨tracked.inverse, fun other fd listed => ?_⟩
  obtain ⟨ino, isOpen, named⟩ := tracked.opened other fd listed
  refine ⟨ino, isOpen, ?_⟩
  have different : other ≠ path := by
    rintro rfl
    have listing := tracked.inverse.key_of_mem listed
    rw [closed] at listing
    cases listing
  exact (Function.update_of_ne different ..).trans named

theorem openFile (tracked : Tracked dm l) (run : dm.openFile path fd = .ok (out, dm')) :
    Tracked dm' ((path, out) :: l) := by
  obtain ⟨ino, named, closed, _, free, rfl, rfl⟩ := DiskManager.openFile_ok run
  refine ⟨tracked.inverse.insert closed (tracked.unlisted free), fun other fd' listed => ?_⟩
  rcases List.mem_cons.mp listed with new | old
  · cases new
    exact ⟨ino, Function.update_self .., named⟩
  · obtain ⟨ino', isOpen, named'⟩ := tracked.opened other fd' old
    have different : fd' ≠ out := by
      rintro rfl
      rw [free] at isOpen
      cases isOpen
    exact ⟨ino', (Function.update_of_ne different ..).trans isOpen, named'⟩

theorem closeFile (tracked : Tracked dm l) (run : dm.closeFile fd = .ok dm') :
    Tracked dm' (l.filter fun entry => entry.2 ≠ fd) := by
  obtain ⟨path, _, toPath, _, rfl⟩ := DiskManager.closeFile_ok run
  refine ⟨tracked.inverse.erase toPath, fun other fd' listed => ?_⟩
  obtain ⟨listed, different⟩ := List.mem_filter.mp listed
  obtain ⟨ino, isOpen, named⟩ := tracked.opened other fd' listed
  exact ⟨ino, (Function.update_of_ne (of_decide_eq_true different) ..).trans isOpen, named⟩

/-- What one call does to the list, as its log entry tells it. -/
theorem returned {log : Log} {c : FileCall} {r : Reply} (tracked : Tracked dm (openList log))
    (run : call c dm = .ok r dm') : Tracked dm' (openList ((c, .ok r) :: log)) := by
  cases c with
  | createFile path fd =>
    obtain ⟨_, created, rfl⟩ := map_eq_ok.mp run
    exact tracked.create (createFile_ok created)
  | destroyFile path permitted =>
    obtain ⟨_, destroyed, rfl⟩ := map_eq_ok.mp run
    exact tracked.destroy (destroyFile_ok destroyed)
  | openFile path fd =>
    obtain ⟨out, opened, rfl⟩ := map_eq_ok.mp run
    exact tracked.openFile (openFile_ok opened)
  | closeFile fd =>
    obtain ⟨_, closed, rfl⟩ := map_eq_ok.mp run
    exact tracked.closeFile (closeFile_ok closed)
  | getFileName fd =>
    obtain ⟨_, named, rfl⟩ := map_eq_ok.mp run
    rw [getFileName_ok named]
    exact tracked
  | getFileFd path fd =>
    obtain ⟨out, found, rfl⟩ := map_eq_ok.mp run
    rcases getFileFd_ok found with ⟨isOpen, rfl⟩ | opened
    · have listed : path ∈ (openList log).map Prod.fst := tracked.inverse.mem_keys.mpr (by rw [isOpen]; rfl)
      simp only [openList, if_pos listed]
      exact tracked
    · obtain ⟨_, _, closed, _⟩ := DiskManager.openFile_ok opened
      have unlisted : path ∉ (openList log).map Prod.fst := by
        rw [tracked.inverse.mem_keys, closed]
        nofun
      simp only [openList, if_neg unlisted]
      exact tracked.openFile opened

end Tracked

theorem openList_error (c : FileCall) (e : Error) (log : Log) : openList ((c, .error e) :: log) = openList log := by
  cases c <;> rfl

theorem Run.tracked {os : Os} {log : Log} (run : Run os log dm) : Tracked dm (openList log) := by
  induction run with
  | new => exact Tracked.new os
  | returned _ step ih => exact ih.returned step
  | threw _ step ih =>
    rw [call_error step, openList_error]
    exact ih

/-- After any calls, whatever came of them, the two tables are inverse maps that list the files
opened and not yet closed. A file is destroyed only if it exists and is not open under that
name, and a call that throws leaves the tables and the files as they were. -/
theorem open_files_inverse {os : Os} {log : Log} (run : Run os log dm) :
    (∀ path fd, dm.path2fd path = some fd ↔ (path, fd) ∈ openList log) ∧
      (∀ path fd, dm.fd2path fd = some path ↔ (path, fd) ∈ openList log) ∧
      ((openList log).map Prod.fst).Nodup ∧ ((openList log).map Prod.snd).Nodup ∧
      (∀ path fd, (path, fd) ∈ openList log → ∃ ino, dm.os.fds fd = some ino ∧ dm.os.inode path = some ino) ∧
      (∀ path permitted u dm', destroyFile path permitted dm = .ok u dm' →
        dm.isFile path ∧ path ∉ (openList log).map Prod.fst ∧ ¬dm'.isFile path) ∧
      ∀ c e dm', call c dm = .error e dm' → dm' = dm := by
  have tracked := run.tracked
  refine ⟨tracked.inverse.forth, tracked.inverse.back, tracked.inverse.keys_nodup, tracked.inverse.values_nodup,
    tracked.opened, ?_, fun c e dm' => call_error⟩
  intro path permitted u dm' destroyed
  have run := destroyFile_ok destroyed
  obtain ⟨closed, rfl⟩ := DiskManager.destroyFile_ok run
  refine ⟨?_, ?_, ?_⟩
  · unfold DiskManager.destroyFile at run
    split at run
    · cases run
    · rename_i isFile
      simpa using isFile
  · rw [tracked.inverse.mem_keys, closed]
    nofun
  · simp [DiskManager.isFile]

/-- A system without files. -/
def noFiles : Os := ⟨fun _ => none, fun _ => none, fun _ => File.empty, 0, fun _ _ => PAGE_SIZE⟩

/-- Two files made and opened; the first is closed and destroyed, and closing it again throws. -/
theorem open_files_inverse_two : ∃ log dm, Run noFiles log dm ∧ openList log = [("b", 4)] ∧ log.length = 7 ∧
    dm.path2fd "b" = some 4 ∧ dm.fd2path 4 = some "b" ∧ dm.path2fd "a" ≠ some 3 := by
  have madeA := (.new : Run noFiles [] _).returned (c := .createFile "a" 3) (r := .done)
    (run_of_value (by decide +kernel))
  have openA := madeA.returned (c := .openFile "a" 3) (r := .descriptor 3) (run_of_value (by decide +kernel))
  have madeB := openA.returned (c := .createFile "b" 4) (r := .done) (run_of_value (by decide +kernel))
  have openB := madeB.returned (c := .getFileFd "b" 4) (r := .descriptor 4) (run_of_value (by decide +kernel))
  have closed := openB.returned (c := .closeFile 3) (r := .done) (run_of_value (by decide +kernel))
  have destroyed := closed.returned (c := .destroyFile "a" true) (r := .done) (run_of_value (by decide +kernel))
  have again := destroyed.threw (c := .closeFile 3) (e := .fileNotOpen 3) rfl
  obtain ⟨forth, back, _⟩ := open_files_inverse again
  refine ⟨_, _, again, by decide, rfl, (forth "b" 4).mpr (by decide), (back "b" 4).mpr (by decide), ?_⟩
  exact fun listed => absurd ((forth "a" 3).mp listed) (by decide)

end Rmdb.OpenFiles

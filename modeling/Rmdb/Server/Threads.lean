import Rmdb.Kit.Threads
import Rmdb.Parser.Yyparse

namespace Rmdb
open Ast Lexer Yacc

/-! `start_server` and its threads: who has which mutex, and whose statement is analyzed. -/

/-- What the threads share: the mutexes, the `sockfd` of the loop body while that variable is alive, the buffer and the
start condition of the scanner, and `parse_tree`. -/
structure Process where
  sockfdMutex : Bool
  bufferMutex : Bool
  sockfd : Option Int
  buffer : Option (List UInt8)
  condition : StartCondition
  parseTree : Option TreeNode

/-- Where `start_server` is: before it locks `sockfd_mutex`, for the first time, after a thread was created or after an
`accept` that failed; before `accept`; before `pthread_create`; at the end of the loop body; behind the loop. -/
inductive ListenerPlace
  | loop (failed : Bool)
  | accept
  | create
  | created
  | broken

/-- Where a `client_handler` is, with what it has read. -/
inductive HandlerPlace
  | started
  | opened (fd : Int)
  | waiting (fd : Int)
  | received (fd : Int) (request : List UInt8)
  | locked (fd : Int) (request : List UInt8)
  | scanned (fd : Int) (request : List UInt8)
  | parsed (fd : Int) (request : List UInt8) (accepted : Bool)
  | analyzing (fd : Int) (request : List UInt8) (stmt : TreeNode)
  | analyzed (fd : Int) (request : List UInt8) (stmt : TreeNode)
  | running (fd : Int) (request : List UInt8) (stmt : TreeNode)
  | ending (fd : Int) (finishAnalyze : Bool)
  | answering (fd : Int)
  | closed (fd : Int)

/-- The connection is the one that a handler was created for, and it is late if it read `sockfd` when the variable was
gone. The code keeps neither. -/
inductive ServerThread
  | listener (place : ListenerPlace)
  | handler (connection : Int) (late : Bool) (place : HandlerPlace)

/-- `yyparse` returns 0. -/
def accepts : Lalr.Stop (Option TreeNode) → Bool
  | .accepted _ => true
  | _ => false

/-- `yyparse` on the buffer of the scanner. It only sets `parse_tree` when it accepts. -/
def Process.parsed (p : Process) (result : Lalr.Stop (Option TreeNode)) (c : StartCondition) : Process where
  __ := p
  condition := c
  parseTree := match result with
    | .accepted parseTree => parseTree
    | _ => p.parseTree

/-- `sockfd` is a variable of the loop body, and a thread gets its address. SIGINT, on which the handler of the signal jumps
out of the loop, is left out. -/
inductive ListenerStep : Process → ListenerPlace → Process → ListenerPlace → List ServerThread → Prop
  | lock {p : Process} {failed : Bool} : p.sockfdMutex = false →
      ListenerStep p (.loop failed) { p with sockfdMutex := true } .accept []
  | accept {p : Process} {fd : Int} : fd ≠ -1 → ListenerStep p .accept { p with sockfd := some fd } .create []
  -- `continue`, with the mutex still locked
  | acceptError {p : Process} : ListenerStep p .accept { p with sockfd := none } (.loop true) []
  | create {p : Process} {fd : Int} : p.sockfd = some fd →
      ListenerStep p .create p .created [.handler fd false .started]
  | createError {p : Process} : ListenerStep p .create { p with sockfd := none } .broken []
  | again {p : Process} : ListenerStep p .created { p with sockfd := none } (.loop false) []

section
variable (atof : List UInt8 → UInt32)

inductive HandlerStep : Process → HandlerPlace → Process → HandlerPlace → Prop
  | copy {p : Process} {fd : Int} : p.sockfd = some fd → HandlerStep p .started p (.opened fd)
  | unlockSockfd {p : Process} {fd : Int} : HandlerStep p (.opened fd) { p with sockfdMutex := false } (.waiting fd)
  | receive {p : Process} {fd : Int} (request : List UInt8) : HandlerStep p (.waiting fd) p (.received fd request)
  | leave {p : Process} {fd : Int} : HandlerStep p (.waiting fd) p (.closed fd)
  | lock {p : Process} {fd : Int} {request : List UInt8} : p.bufferMutex = false →
      HandlerStep p (.received fd request) { p with bufferMutex := true } (.locked fd request)
  | scan {p : Process} {fd : Int} {request : List UInt8} :
      HandlerStep p (.locked fd request) { p with buffer := some request } (.scanned fd request)
  | parse {p : Process} {fd : Int} {request input : List UInt8} {result : Lalr.Stop (Option TreeNode)}
      {c : StartCondition} : p.buffer = some input →
      Flex.parse scanner (yyparse atof) p.condition input = (result, c) →
      HandlerStep p (.scanned fd request) (p.parsed result c) (.parsed fd request (accepts result))
  | fail {p : Process} {fd : Int} {request : List UInt8} :
      HandlerStep p (.parsed fd request false) p (.ending fd false)
  | null {p : Process} {fd : Int} {request : List UInt8} : p.parseTree = none →
      HandlerStep p (.parsed fd request true) p (.ending fd false)
  | analyze {p : Process} {fd : Int} {request : List UInt8} {stmt : TreeNode} : p.parseTree = some stmt →
      HandlerStep p (.parsed fd request true) p (.analyzing fd request stmt)
  -- `do_analyze` throws
  | refuse {p : Process} {fd : Int} {request : List UInt8} {stmt : TreeNode} :
      HandlerStep p (.analyzing fd request stmt) p (.ending fd false)
  | analyzed {p : Process} {fd : Int} {request : List UInt8} {stmt : TreeNode} :
      HandlerStep p (.analyzing fd request stmt) p (.analyzed fd request stmt)
  | unlock {p : Process} {fd : Int} {request : List UInt8} {stmt : TreeNode} :
      HandlerStep p (.analyzed fd request stmt) { p with buffer := none, bufferMutex := false }
        (.running fd request stmt)
  -- whether it returns or throws
  | run {p : Process} {fd : Int} {request : List UInt8} {stmt : TreeNode} :
      HandlerStep p (.running fd request stmt) p (.ending fd true)
  | unlockLate {p : Process} {fd : Int} :
      HandlerStep p (.ending fd false) { p with buffer := none, bufferMutex := false } (.answering fd)
  | finished {p : Process} {fd : Int} : HandlerStep p (.ending fd true) p (.answering fd)
  | answer {p : Process} {fd : Int} : HandlerStep p (.answering fd) p (.waiting fd)
  | writeError {p : Process} {fd : Int} : HandlerStep p (.answering fd) p (.closed fd)

inductive ServerStep : Process → ServerThread → Process → ServerThread → List ServerThread → Prop
  | listener {p p' : Process} {place place' : ListenerPlace} {new : List ServerThread} :
      ListenerStep p place p' place' new → ServerStep p (.listener place) p' (.listener place') new
  | handler {p p' : Process} {connection : Int} {late : Bool} {place place' : HandlerPlace} :
      HandlerStep atof p place p' place' →
      ServerStep p (.handler connection late place) p' (.handler connection late place') []
  -- the loop body is over: nothing is promised of what the handler reads
  | copyLate {p : Process} {connection : Int} {late : Bool} (fd : Int) : p.sockfd = none →
      ServerStep p (.handler connection late .started) p (.handler connection true (.opened fd)) []

def serverThreads : Threads Process ServerThread := ⟨ServerStep atof⟩

/-- The server before its first connection. -/
def listening : Process × List ServerThread :=
  (⟨false, false, none, none, .initial, none⟩, [.listener (.loop false)])

/-- Between locking `sockfd_mutex` and unlocking it: the listener takes it, and the handler gives it up. -/
def ServerThread.hasSockfd : ServerThread → Bool
  | .listener place =>
    match place with
    | .loop failed => failed
    | .accept | .create | .broken => true
    | .created => false
  | .handler _ _ place =>
    match place with
    | .started | .opened _ => true
    | _ => false

/-- Between locking `buffer_mutex` and unlocking it. -/
def ServerThread.hasBuffer : ServerThread → Bool
  | .listener _ => false
  | .handler _ _ place =>
    match place with
    | .locked _ _ | .scanned _ _ | .parsed _ _ _ | .analyzing _ _ _ | .analyzed _ _ _ => true
    | .ending _ finishAnalyze => !finishAnalyze
    | _ => false

def sockfdMutex : Threads.Mutex (serverThreads atof) where
  locked := Process.sockfdMutex
  has := ServerThread.hasSockfd
  turns := by
    rintro p t p' t' new (step | step | gone) holds
    · cases step with
      | @lock failed free =>
        cases failed with
        | false => simp [ServerThread.hasSockfd, free]
        | true => exact absurd ((holds rfl).symm.trans free) Bool.noConfusion
      | accept _ => rfl
      | acceptError => rfl
      | create _ => rfl
      | createError => rfl
      | again => rfl
    · cases step
      case unlockSockfd =>
        have locked : p.sockfdMutex = true := holds rfl
        simp [ServerThread.hasSockfd, locked]
      all_goals rfl
    · rfl

def bufferMutex : Threads.Mutex (serverThreads atof) where
  locked := Process.bufferMutex
  has := ServerThread.hasBuffer
  turns := by
    rintro p t p' t' new (step | step | gone) holds
    · cases step <;> rfl
    · cases step
      case lock free => simp [ServerThread.hasBuffer, free]
      case unlock =>
        have locked : p.bufferMutex = true := holds rfl
        simp [ServerThread.hasBuffer, locked]
      case unlockLate =>
        have locked : p.bufferMutex = true := holds rfl
        simp [ServerThread.hasBuffer, locked]
      all_goals rfl
    · rfl

/-- The descriptor that it has read. -/
def HandlerPlace.fd : HandlerPlace → Option Int
  | .started => none
  | .opened fd | .waiting fd | .received fd _ | .locked fd _ | .scanned fd _ | .parsed fd _ _ | .analyzing fd _ _
  | .analyzed fd _ _ | .running fd _ _ | .ending fd _ | .answering fd | .closed fd => some fd

/-- The statement that it has given to `do_analyze`, and the request. -/
def HandlerPlace.statement : HandlerPlace → Option (List UInt8 × TreeNode)
  | .analyzing _ request stmt | .analyzed _ request stmt | .running _ request stmt => some (request, stmt)
  | _ => none

/-- A handler that is not late reads the descriptor of its own connection: as long as it has not done so, `sockfd` holds
that or is gone. -/
def ServerThread.Connected (p : Process) : ServerThread → Prop
  | .listener _ => True
  | .handler connection late place => late = true ∨
    (place = .started ∧ (p.sockfd = none ∨ p.sockfd = some connection) ∨ place.fd = some connection)

/-- A handler analyzes what was parsed of its own request. -/
def ServerThread.Analyzes (p : Process) : ServerThread → Prop
  | .listener _ => True
  | .handler _ _ place =>
    (∀ fd request, place = .scanned fd request → p.buffer = some request) ∧
    (∀ fd request stmt, place = .parsed fd request true → p.parseTree = some stmt →
      ∃ c, Parser.Parses c request stmt) ∧
    ∀ request stmt, place.statement = some (request, stmt) → ∃ c, Parser.Parses c request stmt

variable {c d : Process × List ServerThread}

theorem connected_steps (kept : (sockfdMutex atof).Kept c) (start : ∀ t ∈ c.2, t.Connected c.1)
    (steps : (serverThreads atof).Steps c d) : ∀ t ∈ d.2, t.Connected d.1 := by
  refine kept.all ?_ ?_ start steps
  · rintro p t p' t' new (step | @⟨p', connection, late, place, place', step⟩ | gone) connected
    · refine ⟨trivial, ?_⟩
      cases step with
      | create alive => simp [ServerThread.Connected, alive]
      | _ => exact nofun
    · refine ⟨connected.imp_right fun own => ?_, nofun⟩
      cases step with
      | copy alive =>
        rcases own with ⟨_, dead | same⟩ | read
        · cases alive.symm.trans dead
        · exact Or.inr (alive.symm.trans same)
        · cases read
      | _ => simpa [HandlerPlace.fd] using own
    · exact ⟨Or.inl rfl, nofun⟩
  · rintro p t p' t' new u (step | step | gone) alone connected
    · cases u with
      | listener _ => trivial
      | handler connection late place =>
        rcases connected with isLate | ⟨rfl, same⟩ | read
        · exact Or.inl isLate
        · cases step
          case accept => exact absurd (alone rfl) Bool.noConfusion
          case acceptError => exact absurd (alone rfl) Bool.noConfusion
          case createError => exact absurd (alone rfl) Bool.noConfusion
          case again => exact Or.inr (Or.inl ⟨rfl, Or.inl rfl⟩)
          all_goals exact Or.inr (Or.inl ⟨rfl, same⟩)
        · exact Or.inr (Or.inr read)
    · cases step <;> exact connected
    · exact connected

theorem analyzes_steps (kept : (bufferMutex atof).Kept c) (start : ∀ t ∈ c.2, t.Analyzes c.1)
    (steps : (serverThreads atof).Steps c d) : ∀ t ∈ d.2, t.Analyzes d.1 := by
  refine kept.all ?_ ?_ start steps
  · rintro p t p' t' new (step | step | gone) analyzes
    · refine ⟨trivial, ?_⟩
      cases step <;> simp [ServerThread.Analyzes, HandlerPlace.statement]
    · refine ⟨?_, nofun⟩
      obtain ⟨scanned, parsed, analyzed⟩ := analyzes
      cases step
      case parse fd request input result c buffer run =>
        refine ⟨by simp, ?_, by simp [HandlerPlace.statement]⟩
        rintro fd' request' stmt same tree
        obtain ⟨rfl, rfl, accepted⟩ := HandlerPlace.parsed.inj same
        obtain rfl := Option.some.inj (buffer.symm.trans (scanned _ _ rfl))
        cases result with
        | accepted parseTree =>
          obtain rfl : parseTree = some stmt := tree
          exact ⟨p.condition, parses_of_accepted atof (congrArg Prod.fst run)⟩
        | _ => cases accepted
      case analyze fd request stmt tree =>
        have own := parsed _ _ _ rfl tree
        simpa [ServerThread.Analyzes, HandlerPlace.statement] using own
      case analyzed => simpa [ServerThread.Analyzes, HandlerPlace.statement] using analyzed
      case unlock => simpa [ServerThread.Analyzes, HandlerPlace.statement] using analyzed
      all_goals simp [ServerThread.Analyzes, HandlerPlace.statement]
    · simp [ServerThread.Analyzes, HandlerPlace.statement]
  · rintro p t p' t' new u (step | step | gone) alone analyzes
    · cases u with
      | listener _ => trivial
      | handler connection late place =>
        cases step <;> exact analyzes
    · cases u with
      | listener _ => trivial
      | handler connection late place =>
        -- what writes the buffer or `parse_tree` has the mutex, and what relies on them too
        have apart (holder : ServerThread.hasBuffer (.handler connection late place) = false) :
            ServerThread.Analyzes p' (.handler connection late place) := by
          refine ⟨?_, ?_, analyzes.2.2⟩
          · rintro fd request rfl
            cases holder
          · rintro fd request stmt rfl
            cases holder
        cases step
        case scan => exact apart (alone rfl)
        case parse => exact apart (alone rfl)
        case unlock => exact apart (alone rfl)
        case unlockLate => exact apart (alone rfl)
        all_goals exact analyzes
    · exact analyzes

/-- It does not wait for a mutex. -/
def CanStep (p : Process) (t : ServerThread) : Prop := ∃ p' t' new, ServerStep atof p t p' t' new

theorem CanStep.of_handler {p p' : Process} {connection : Int} {late : Bool} {place place' : HandlerPlace}
    (step : HandlerStep atof p place p' place') : CanStep atof p (.handler connection late place) :=
  ⟨_, _, _, .handler step⟩

/-- Nothing between locking `buffer_mutex` and unlocking it waits. -/
theorem canStep_of_hasBuffer {p : Process} {t : ServerThread} (holder : t.hasBuffer = true)
    (analyzes : t.Analyzes p) : CanStep atof p t := by
  cases t with
  | listener _ => cases holder
  | handler connection late place =>
    cases place with
    | locked fd request => exact .of_handler atof .scan
    | scanned fd request => exact .of_handler atof (.parse (analyzes.1 _ _ rfl) rfl)
    | parsed fd request accepted =>
      cases accepted with
      | false => exact .of_handler atof .fail
      | true =>
        cases tree : p.parseTree with
        | none => exact .of_handler atof (.null tree)
        | some stmt => exact .of_handler atof (.analyze tree)
    | analyzing fd request stmt => exact .of_handler atof .analyzed
    | analyzed fd request stmt => exact .of_handler atof .unlock
    | ending fd finishAnalyze =>
      cases finishAnalyze with
      | false => exact .of_handler atof .unlockLate
      | true => cases holder
    | _ => cases holder

/-- Who has `sockfd_mutex` goes on, unless a call of the listener has failed. -/
theorem canStep_of_hasSockfd {p : Process} {t : ServerThread} (holder : t.hasSockfd = true) :
    CanStep atof p t ∨ t = .listener (.loop true) ∨ t = .listener .broken := by
  cases t with
  | listener place =>
    cases place with
    | loop failed =>
      cases failed with
      | false => cases holder
      | true => exact Or.inr (Or.inl rfl)
    | accept => exact Or.inl ⟨_, _, _, .listener .acceptError⟩
    | create => exact Or.inl ⟨_, _, _, .listener .createError⟩
    | created => cases holder
    | broken => exact Or.inr (Or.inr rfl)
  | handler connection late place =>
    cases place with
    | started =>
      cases alive : p.sockfd with
      | none => exact Or.inl ⟨_, _, _, .copyLate 0 alive⟩
      | some fd => exact Or.inl (.of_handler atof (.copy alive))
    | opened fd => exact Or.inl (.of_handler atof .unlockSockfd)
    | _ => cases holder

theorem sockfd_kept (run : (serverThreads atof).Steps listening c) : (sockfdMutex atof).Kept c :=
  Threads.Mutex.Kept.steps (c := listening) rfl run

theorem buffer_kept (run : (serverThreads atof).Steps listening c) : (bufferMutex atof).Kept c :=
  Threads.Mutex.Kept.steps (c := listening) rfl run

/-! One connection, and a failed `accept` behind it. -/

section
variable {atof} {p p' : Process} {rest : List ServerThread}

theorem step_listener {place place' : ListenerPlace} {new : List ServerThread}
    (step : ListenerStep p place p' place' new) :
    (serverThreads atof).Step (p, .listener place :: rest) (p', .listener place' :: rest ++ new) :=
  @Threads.Step.mk _ _ _ _ _ [] rest _ _ _ (.listener step)

theorem step_handler {l : ServerThread} {connection : Int} {late : Bool} {place place' : HandlerPlace}
    (step : HandlerStep atof p place p' place') :
    (serverThreads atof).Step (p, [l, .handler connection late place]) (p', [l, .handler connection late place']) :=
  @Threads.Step.mk _ _ _ _ _ [l] [] [] _ _ (.handler step)

end

theorem creates : (serverThreads atof).Steps listening
    (⟨true, false, some 5, none, .initial, none⟩, [.listener .created, .handler 5 false .started]) :=
  Relation.ReflTransGen.refl.tail (step_listener (.lock rfl)) |>.tail (step_listener (.accept (by decide)))
    |>.tail (step_listener (.create rfl))

theorem connects : (serverThreads atof).Steps listening
    (⟨false, false, none, none, .initial, none⟩, [.listener (.loop false), .handler 5 false (.waiting 5)]) :=
  (creates atof).tail (step_handler (.copy rfl)) |>.tail (step_handler .unlockSockfd) |>.tail (step_listener .again)

theorem locks (request : List UInt8) : (serverThreads atof).Steps listening
    (⟨false, true, none, none, .initial, none⟩, [.listener (.loop false), .handler 5 false (.locked 5 request)]) :=
  (connects atof).tail (step_handler (.receive request)) |>.tail (step_handler (.lock rfl))

theorem fails : (serverThreads atof).Steps listening
    (⟨true, false, none, none, .initial, none⟩, [.listener (.loop true), .handler 5 false (.waiting 5)]) :=
  (connects atof).tail (step_listener (.lock rfl)) |>.tail (step_listener .acceptError)

/-- The mutex does not keep `sockfd` alive: the loop body ends, and then the handler reads whatever there is. -/
theorem sockfd_read_late (fd : Int) : (serverThreads atof).Steps listening
    (⟨true, false, none, none, .initial, none⟩, [.listener (.loop false), .handler 5 true (.opened fd)]) :=
  (creates atof).tail (step_listener .again)
    |>.tail (@Threads.Step.mk _ _ _ _ _ [_] [] [] _ _ (.copyLate fd rfl))

/-- However the threads take turns, each mutex has one holder when it is locked and none when it is not; a handler that
reads `sockfd` before the loop body is over answers the connection it was created for, and each analyzes its own request,
though the buffer and `parse_tree` are shared; and who has a mutex does not wait for another one, unless `accept` or
`pthread_create` has failed. -/
theorem serverThreads_agree {p : Process} {ts : List ServerThread}
    (run : (serverThreads atof).Steps listening (p, ts)) :
    (ts.countP ServerThread.hasSockfd = p.sockfdMutex.toNat ∧
      ts.countP ServerThread.hasBuffer = p.bufferMutex.toNat) ∧
    (∀ connection late place, .handler connection late place ∈ ts →
      (late = false → ∀ fd, place.fd = some fd → fd = connection) ∧
      ∀ request stmt, place.statement = some (request, stmt) → ∃ c, Parser.Parses c request stmt) ∧
    (p.bufferMutex = true → ∃ t ∈ ts, t.hasBuffer = true ∧ CanStep atof p t) ∧
    (p.sockfdMutex = true → ∃ t ∈ ts, t.hasSockfd = true ∧
      (CanStep atof p t ∨ t = .listener (.loop true) ∨ t = .listener .broken)) := by
  have sockfd := sockfd_kept atof run
  have buffer := buffer_kept atof run
  have connected := connected_steps atof (c := listening) rfl (by simp [listening, ServerThread.Connected]) run
  have analyzes := analyzes_steps atof (c := listening) rfl (by simp [listening, ServerThread.Analyzes]) run
  refine ⟨⟨sockfd, buffer⟩, fun connection late place member => ⟨fun inTime fd read => ?_, (analyzes _ member).2.2⟩,
    fun locked => ?_, fun locked => ?_⟩
  · rcases connected _ member with isLate | ⟨rfl, _⟩ | read'
    · cases inTime.symm.trans isLate
    · cases read
    · exact Option.some.inj (read.symm.trans read')
  · obtain ⟨t, member, holder⟩ := buffer.holder locked
    exact ⟨t, member, holder, canStep_of_hasBuffer atof holder (analyzes t member)⟩
  · obtain ⟨t, member, holder⟩ := sockfd.holder locked
    exact ⟨t, member, holder, canStep_of_hasSockfd atof holder⟩

theorem serverThreads_agree_locks : (∃ t ∈ [.listener (.loop false), .handler 5 false (.locked 5 insertRequest)],
    t.hasBuffer = true ∧ CanStep (fun _ => 0) ⟨false, true, none, none, .initial, none⟩ t) ∧
      ∀ fd, (HandlerPlace.locked 5 insertRequest).fd = some fd → fd = 5 := by
  obtain ⟨_, handlers, progress, _⟩ := serverThreads_agree _ (locks _ insertRequest)
  exact ⟨progress rfl, (handlers 5 false _ (List.mem_cons_of_mem _ List.mem_cons_self)).1 rfl⟩

/-- Only who has `sockfd_mutex` creates a thread. -/
theorem new_of_idle {p p' : Process} {t t' : ServerThread} {new : List ServerThread}
    (step : ServerStep atof p t p' t' new) (idle : t.hasSockfd = false) : new = [] := by
  rcases step with step | step | gone
  · cases step with
    | create => cases idle
    | _ => rfl
  · rfl
  · rfl

theorem failed_step (kept : (sockfdMutex atof).Kept c) (failed : .listener (.loop true) ∈ c.2)
    (step : (serverThreads atof).Step c d) : .listener (.loop true) ∈ d.2 ∧ d.2.length = c.2.length := by
  cases step with
  | @mk p p' front back new t t' step =>
    have locked : p.sockfdMutex = true := Threads.Mutex.Kept.locked kept failed rfl
    have idle : t.hasSockfd = false := by
      by_contra holder
      rw [Bool.not_eq_false] at holder
      have others := Threads.Mutex.Kept.others kept holder
      -- nobody else has it, so the step is the listener's, and it waits
      have same : .listener (.loop true) = t := by
        by_contra other
        have member : .listener (.loop true) ∈ front ++ back := by simpa [other] using failed
        cases others _ member
      subst same
      rcases step with step | step | gone
      cases step with
      | lock free => exact Bool.noConfusion (locked.symm.trans free)
    obtain rfl := new_of_idle atof step idle
    have other : ServerThread.listener (.loop true) ≠ t := by
      rintro rfl
      cases idle
    refine ⟨?_, by simp⟩
    have member : .listener (.loop true) ∈ front ++ back := by simpa [other] using failed
    simp only [List.append_nil, List.mem_append, List.mem_cons] at member ⊢
    exact member.imp_right Or.inr

/-- After an `accept` that fails the listener waits for a mutex that it has itself, and no connection is served any
more. -/
theorem accept_failed {p p' : Process} {ts ts' : List ServerThread}
    (run : (serverThreads atof).Steps listening (p, ts)) (failed : .listener (.loop true) ∈ ts)
    (later : (serverThreads atof).Steps (p, ts) (p', ts')) :
    .listener (.loop true) ∈ ts' ∧ p'.sockfdMutex = true ∧ ts'.length = ts.length := by
  have still : ∀ {d}, (serverThreads atof).Steps (p, ts) d →
      .listener (.loop true) ∈ d.2 ∧ d.2.length = ts.length := by
    intro d steps
    induction steps with
    | refl => exact ⟨failed, rfl⟩
    | tail before last ih =>
      obtain ⟨waits, length⟩ := failed_step atof (sockfd_kept atof (run.trans before)) ih.1 last
      exact ⟨waits, length.trans ih.2⟩
  obtain ⟨waits, length⟩ := still later
  exact ⟨waits, Threads.Mutex.Kept.locked (sockfd_kept atof (run.trans later)) waits rfl, length⟩

theorem accept_failed_receives : (.listener (.loop true) : ServerThread) ∈
    [.listener (.loop true), .handler 5 false (.received 5 insertRequest)] ∧
      (⟨true, false, none, none, .initial, none⟩ : Process).sockfdMutex = true ∧
      [ServerThread.listener (.loop true), .handler 5 false (.received 5 insertRequest)].length = 2 :=
  accept_failed (fun _ => 0) (fails _) List.mem_cons_self
    (Relation.ReflTransGen.refl.tail (step_handler (.receive insertRequest)))

end

end Rmdb

import Xv6.Sched.Model

/-!
# The instructions, case by case

`instr` is a table. The three relations list its rows by kind: where a lock is taken, where one is
given back, and which sections of work there are, with the condition under which each branch of a
section is the one that runs. The inversion lemmas (`acquires_of_instr`, `releases_of_instr`,
`acts_of_instr`) are the only place where the table is unfolded.
-/

set_option autoImplicit false

namespace Xv6.Sched

variable {N : Nat} {C : Type}

/-- Places at which a lock is taken. -/
inductive Acquires (k : Cfg N) : Option (Fin N) → Frame N → Lock N → List (Frame N) → Prop
  | scan (me : Option (Fin N)) (p : Fin N) (ps : List (Fin N)) :
      Acquires k me (.scan (p :: ps)) (.proc p) [.pick p ps]
  | wakeup (me : Option (Fin N)) (ch : Option (Chan N)) (q : Fin N) (ps : List (Fin N)) :
      some q ≠ me → Acquires k me (.wakeup ch (q :: ps)) (.proc q) [.wakeup1 ch q ps]
  | client (me : Option (Fin N)) (l : Nat) :
      Acquires k me (.client0 l) (.other l) [.holding l false]
  | yield (p : Fin N) : Acquires k (some p) .yield0 (.proc p) [.yield1]
  | sleep (p : Fin N) (ch : Chan N) (lk : Lock N) :
      Acquires k (some p) (.sleep0 ch lk) (.proc p) [.sleep1 ch lk]
  | sleepEnd (p : Fin N) (ch : Chan N) (lk : Lock N) : Acquires k (some p) (.sleep7 ch lk) lk []
  | kill (p : Fin N) (pid : Int32) (q : Fin N) (ps : List (Fin N)) :
      Acquires k (some p) (.kill pid (q :: ps)) (.proc q) [.kill1 pid q ps]
  | setkilled (p : Fin N) : Acquires k (some p) .setkilled0 (.proc p) [.setkilled1]
  | exit (p : Fin N) (status : Int32) :
      p ≠ k.initproc → Acquires k (some p) (.exit0 status) .wait [.reparent status (procs N)]
  | exitSelf (p : Fin N) (status : Int32) :
      Acquires k (some p) (.exit2 status) (.proc p) [.exit3 status]
  | wait (p : Fin N) (addr : Nat) :
      Acquires k (some p) (.wait0 addr) .wait [.waitScan addr false (procs N)]
  | waitChild (p : Fin N) (addr : Nat) (q : Fin N) (ps : List (Fin N)) :
      Acquires k (some p) (.waitLock addr q ps) (.proc q) [.waitTest addr q ps]
  | waitKilled (p : Fin N) (addr : Nat) :
      Acquires k (some p) (.waitKilled0 addr) (.proc p) [.waitKilled1 addr]
  | fork (p : Fin N) (q : Fin N) (ps : List (Fin N)) :
      Acquires k (some p) (.fork (q :: ps)) (.proc q) [.forkTest q ps]
  | forkPid (p : Fin N) (q : Fin N) : Acquires k (some p) (.forkPid0 q) .pid [.forkPid1 q]
  | forkParent (p : Fin N) (q : Fin N) (pid : Int32) :
      Acquires k (some p) (.forkParent0 q pid) .wait [.forkParent1 q pid]
  | forkRun (p : Fin N) (q : Fin N) (pid : Int32) :
      Acquires k (some p) (.forkRun0 q pid) (.proc q) [.forkRun1 q pid]

/-- Places at which a lock is given back. -/
inductive Releases : Option (Fin N) → Frame N → Lock N → List (Frame N) → Event N → Prop
  | drop (me : Option (Fin N)) (p : Fin N) (ps : List (Fin N)) :
      Releases me (.drop p ps) (.proc p) [.scan ps] .silent
  | wakeup (me : Option (Fin N)) (ch : Option (Chan N)) (q : Fin N) (ps : List (Fin N)) :
      Releases me (.wakeup2 ch q ps) (.proc q) [.wakeup ch ps] .silent
  | forkret (p : Fin N) : Releases (some p) .forkret (.proc p) [] .silent
  | yield (p : Fin N) : Releases (some p) .yield3 (.proc p) [] .silent
  | sleep (p : Fin N) (ch : Chan N) (lk : Lock N) :
      Releases (some p) (.sleep1 ch lk) lk [.sleep2 ch lk] .silent
  | sleepEnd (p : Fin N) (ch : Chan N) (lk : Lock N) :
      Releases (some p) (.sleep6 ch lk) (.proc p) [.sleep7 ch lk] .silent
  | killEnd (p : Fin N) (q : Fin N) : Releases (some p) (.kill3 q) (.proc q) [] .silent
  | kill (p : Fin N) (pid : Int32) (q : Fin N) (ps : List (Fin N)) :
      Releases (some p) (.kill4 pid q ps) (.proc q) [.kill pid ps] .silent
  | setkilled (p : Fin N) : Releases (some p) .setkilled2 (.proc p) [] .silent
  | exit (p : Fin N) : Releases (some p) .exit5 .wait [.exit6] .silent
  | waitDone (p : Fin N) (q : Fin N) (pid : Int32) :
      Releases (some p) (.waitDone q pid) (.proc q) [.waitRet pid] .silent
  | waitRet (p : Fin N) (pid : Int32) : Releases (some p) (.waitRet pid) .wait [] (.waited p pid)
  | waitErr (p : Fin N) (q : Fin N) : Releases (some p) (.waitErr q) (.proc q) [.waitFail] .silent
  | waitFail (p : Fin N) : Releases (some p) .waitFail .wait [] .silent
  | waitDrop (p : Fin N) (addr : Nat) (q : Fin N) (ps : List (Fin N)) :
      Releases (some p) (.waitDrop addr q ps) (.proc q) [.waitScan addr true ps] .silent
  | waitKilled (p : Fin N) (addr : Nat) :
      Releases (some p) (.waitKilled2 addr true) (.proc p) [.waitFail] .silent
  | waitSleep (p : Fin N) (addr : Nat) :
      Releases (some p) (.waitKilled2 addr false) (.proc p)
        [.sleep0 (.proc p) .wait, .waitScan addr false (procs N)] .silent
  | forkDrop (p : Fin N) (q : Fin N) (ps : List (Fin N)) :
      Releases (some p) (.forkDrop q ps) (.proc q) [.fork ps] .silent
  | forkPid (p : Fin N) (q : Fin N) (pid : Int32) :
      Releases (some p) (.forkPid2 q pid) .pid [.forkUsed q pid] .silent
  | forkFail (p : Fin N) (q : Fin N) : Releases (some p) (.forkFail1 q) (.proc q) [] .silent
  | forkRel (p : Fin N) (q : Fin N) (pid : Int32) :
      Releases (some p) (.forkRel q pid) (.proc q) [.forkParent0 q pid] .silent
  | forkParent (p : Fin N) (q : Fin N) (pid : Int32) :
      Releases (some p) (.forkParent2 q pid) .wait [.forkRun0 q pid] .silent
  | forkRun (p : Fin N) (q : Fin N) (pid : Int32) :
      Releases (some p) (.forkRun2 q pid) (.proc q) [] .silent

variable [DecidableEq C]

/-- Sections that only go on to another place. -/
inductive Moves (me : Option (Fin N)) (sh : Shared N C) : Frame N → List (Frame N) → Event N → Prop
  | scan : Moves me sh (.scan []) [.scan (procs N)] .silent
  | pick (p : Fin N) (ps : List (Fin N)) : (sh.proc p).state ≠ .runnable →
      Moves me sh (.pick p ps) [.drop p ps] .silent
  | wakeupEnd (ch : Option (Chan N)) : Moves me sh (.wakeup ch []) [] .silent
  | wakeupSelf (ch : Option (Chan N)) (q : Fin N) (ps : List (Fin N)) : some q = me →
      Moves me sh (.wakeup ch (q :: ps)) [.wakeup ch ps] .silent
  | wakeup (ch : Option (Chan N)) (q : Fin N) (ps : List (Fin N)) :
      ¬((sh.proc q).state = .sleeping ∧ (sh.proc q).chan = ch) →
      Moves me sh (.wakeup1 ch q ps) [.wakeup2 ch q ps] .silent
  | killEnd (p : Fin N) (pid : Int32) : me = some p →
      Moves me sh (.kill pid []) [] (.killFailed pid)
  | kill (p : Fin N) (pid : Int32) (q : Fin N) (ps : List (Fin N)) : me = some p →
      (sh.proc q).pid ≠ pid → Moves me sh (.kill1 pid q ps) [.kill4 pid q ps] .silent
  | killAwake (p : Fin N) (pid : Int32) (q : Fin N) : me = some p →
      (sh.proc q).state ≠ .sleeping → Moves me sh (.kill2 pid q) [.kill3 q] .silent
  | reparentEnd (p : Fin N) (status : Int32) : me = some p →
      Moves me sh (.reparent status [])
        [.wakeup ((sh.proc p).parent.map .proc) (procs N), .exit2 status] .silent
  | reparent (p : Fin N) (status : Int32) (q : Fin N) (ps : List (Fin N)) : me = some p →
      (sh.proc q).parent ≠ some p →
      Moves me sh (.reparent status (q :: ps)) [.reparent status ps] .silent
  | waitEnd (p : Fin N) (addr : Nat) : me = some p →
      Moves me sh (.waitScan addr false []) [.waitFail] .silent
  | waitKids (p : Fin N) (addr : Nat) : me = some p →
      Moves me sh (.waitScan addr true []) [.waitKilled0 addr] .silent
  | waitChild (p : Fin N) (addr : Nat) (kids : Bool) (q : Fin N) (ps : List (Fin N)) : me = some p →
      (sh.proc q).parent = some p →
      Moves me sh (.waitScan addr kids (q :: ps)) [.waitLock addr q ps] .silent
  | waitOther (p : Fin N) (addr : Nat) (kids : Bool) (q : Fin N) (ps : List (Fin N)) : me = some p →
      (sh.proc q).parent ≠ some p →
      Moves me sh (.waitScan addr kids (q :: ps)) [.waitScan addr kids ps] .silent
  | waitErr (p : Fin N) (addr : Nat) (q : Fin N) (ps : List (Fin N)) : me = some p →
      (sh.proc q).state = .zombie →
      Moves me sh (.waitTest addr q ps) [.waitErr q] (.copyoutFailed p q)
  | waitAlive (p : Fin N) (addr : Nat) (q : Fin N) (ps : List (Fin N)) : me = some p →
      (sh.proc q).state ≠ .zombie → Moves me sh (.waitTest addr q ps) [.waitDrop addr q ps] .silent
  | waitKilled (p : Fin N) (addr : Nat) : me = some p →
      Moves me sh (.waitKilled1 addr) [.waitKilled2 addr (sh.proc p).killed] .silent
  | forkEnd (p : Fin N) : me = some p → Moves me sh (.fork []) [] .silent
  | forkFound (p : Fin N) (q : Fin N) (ps : List (Fin N)) : me = some p →
      (sh.proc q).state = .unused → Moves me sh (.forkTest q ps) [.forkPid0 q] .silent
  | forkTaken (p : Fin N) (q : Fin N) (ps : List (Fin N)) : me = some p →
      (sh.proc q).state ≠ .unused → Moves me sh (.forkTest q ps) [.forkDrop q ps] .silent
  | forkNoCopy (p : Fin N) (q : Fin N) : me = some p →
      Moves me sh (.forkCopy q) [.forkFail q] .silent

/-- Sections that write one slot `q` of the process table, the new contents being `x`. -/
inductive Writes (k : Cfg N) (me : Option (Fin N)) (sh : Shared N C) :
    Frame N → Fin N → Proc N → List (Frame N) → Event N → Prop
  | pick (p : Fin N) (ps : List (Fin N)) : (sh.proc p).state = .runnable →
      Writes k me sh (.pick p ps) p { sh.proc p with state := .running } [.assign p ps] .silent
  | wakeup (ch : Option (Chan N)) (q : Fin N) (ps : List (Fin N)) : (sh.proc q).state = .sleeping →
      (sh.proc q).chan = ch →
      Writes k me sh (.wakeup1 ch q ps) q { sh.proc q with state := .runnable } [.wakeup2 ch q ps]
        .silent
  | yield (p : Fin N) : me = some p →
      Writes k me sh .yield1 p { sh.proc p with state := .runnable } [.yield2] .silent
  | sleepChan (p : Fin N) (ch : Chan N) (lk : Lock N) : me = some p →
      Writes k me sh (.sleep2 ch lk) p { sh.proc p with chan := some ch } [.sleep3 ch lk] .silent
  | sleep (p : Fin N) (ch : Chan N) (lk : Lock N) : me = some p →
      Writes k me sh (.sleep3 ch lk) p { sh.proc p with state := .sleeping } [.sleep4 ch lk] .silent
  | sleepEnd (p : Fin N) (ch : Chan N) (lk : Lock N) : me = some p →
      Writes k me sh (.sleep5 ch lk) p { sh.proc p with chan := none } [.sleep6 ch lk] .silent
  | kill (p : Fin N) (pid : Int32) (q : Fin N) (ps : List (Fin N)) : me = some p →
      (sh.proc q).pid = pid →
      Writes k me sh (.kill1 pid q ps) q { sh.proc q with killed := true } [.kill2 pid q]
        (.killed pid q)
  | killAsleep (p : Fin N) (pid : Int32) (q : Fin N) : me = some p →
      (sh.proc q).state = .sleeping →
      Writes k me sh (.kill2 pid q) q { sh.proc q with state := .runnable } [.kill3 q] .silent
  | setkilled (p : Fin N) : me = some p →
      Writes k me sh .setkilled1 p { sh.proc p with killed := true } [.setkilled2] .silent
  | grow (p : Fin N) (sz pagetable : Nat) : me = some p →
      Writes k me sh (.grow sz pagetable) p { sh.proc p with sz := sz, pagetable := some pagetable } []
        .silent
  | reparent (p : Fin N) (status : Int32) (q : Fin N) (ps : List (Fin N)) : me = some p →
      (sh.proc q).parent = some p →
      Writes k me sh (.reparent status (q :: ps)) q { sh.proc q with parent := some k.initproc }
        [.wakeup (some (.proc k.initproc)) (procs N), .reparent status ps] .silent
  | exitStatus (p : Fin N) (status : Int32) : me = some p →
      Writes k me sh (.exit3 status) p { sh.proc p with xstate := status } [.exit4 status] .silent
  | exit (p : Fin N) (status : Int32) : me = some p →
      Writes k me sh (.exit4 status) p { sh.proc p with state := .zombie } [.exit5]
        (.exited p (sh.proc p).pid status)
  | reap (p : Fin N) (addr : Nat) (q : Fin N) (ps : List (Fin N)) : me = some p →
      (sh.proc q).state = .zombie →
      Writes k me sh (.waitTest addr q ps) q Proc.free [.waitDone q (sh.proc q).pid]
        (.reaped p q (sh.proc q).pid (if addr ≠ 0 then some (sh.proc q).xstate else none))
  | forkUsed (p : Fin N) (q : Fin N) (pid : Int32) : me = some p →
      Writes k me sh (.forkUsed q pid) q { sh.proc q with pid := pid, state := .used } [.forkAlloc q]
        .silent
  | forkAlloc (p : Fin N) (q : Fin N) (page table : Nat) : me = some p →
      Writes k me sh (.forkAlloc q) q
        { sh.proc q with trapframe := some page, pagetable := some table } [.forkContext q] .silent
  | forkNoMemory (p : Fin N) (q : Fin N) (page : Option Nat) : me = some p →
      Writes k me sh (.forkAlloc q) q { sh.proc q with trapframe := page } [.forkFail q] .silent
  | forkCopy (p : Fin N) (q : Fin N) : me = some p →
      Writes k me sh (.forkCopy q) q { sh.proc q with sz := (sh.proc p).sz }
        [.forkRel q (sh.proc q).pid] .silent
  | forkFail (p : Fin N) (q : Fin N) : me = some p →
      Writes k me sh (.forkFail q) q Proc.free [.forkFail1 q] .silent
  | forkParent (p : Fin N) (q : Fin N) (pid : Int32) : me = some p →
      Writes k me sh (.forkParent1 q pid) q { sh.proc q with parent := some p } [.forkParent2 q pid]
        .silent
  | forkRun (p : Fin N) (q : Fin N) (pid : Int32) : me = some p →
      Writes k me sh (.forkRun1 q pid) q { sh.proc q with state := .runnable } [.forkRun2 q pid]
        .silent

/-- Sections of work: going on, writing one slot, taking the next pid, setting or clearing `c->proc`. -/
inductive Acts (k : Cfg N) (c : C) (me : Option (Fin N)) (sh : Shared N C) (f : Frame N) :
    Shared N C → List (Frame N) → Event N → Prop
  | move {next : List (Frame N)} {ev : Event N} : Moves me sh f next ev → Acts k c me sh f sh next ev
  | write {q : Fin N} {x : Proc N} {next : List (Frame N)} {ev : Event N} :
      Writes k me sh f q x next ev → Acts k c me sh f (sh.setProc q x) next ev
  | pid (p q : Fin N) : me = some p → f = .forkPid1 q →
      Acts k c me sh f { sh with nextpid := sh.nextpid + 1 } [.forkPid2 q sh.nextpid] .silent
  | assign (p : Fin N) (ps : List (Fin N)) : f = .assign p ps →
      Acts k c me sh f (sh.setCpu c (some p)) [.switch p ps] .silent
  | back (p : Fin N) (ps : List (Fin N)) : f = .back p ps →
      Acts k c me sh f (sh.setCpu c none) [.drop p ps] .silent

/-- Places at which a process leaves its CPU, and where it goes on when it is back. -/
inductive Leaves : Frame N → Frame N → Prop
  | yield : Leaves .yield2 .yield3
  | sleep (ch : Chan N) (lk : Lock N) : Leaves (.sleep4 ch lk) (.sleep5 ch lk)
  | exit : Leaves .exit6 .dead

/-- The rows of the table. -/
inductive Row (k : Cfg N) (c : C) (me : Option (Fin N)) (f : Frame N) : Instr N C → Prop
  | acquire {lk : Lock N} {next : List (Frame N)} : Acquires k me f lk next →
      Row k c me f (.acquire lk next)
  | release {lk : Lock N} {next : List (Frame N)} {ev : Event N} : Releases me f lk next ev →
      Row k c me f (.release lk next ev)
  | act {g : Input → Shared N C → Result N C} :
      (∀ inp sh, Acts k c me sh f (g inp sh).1 (g inp sh).2.1 (g inp sh).2.2) → Row k c me f (.act g)
  | swtchTo (p : Fin N) (ps : List (Fin N)) : f = .switch p ps →
      Row k c me f (.swtchTo p (.back p ps))
  | swtchBack {next : Frame N} : Leaves f next → Row k c me f (.swtchBack next)
  | context (p q : Fin N) : me = some p → f = .forkContext q →
      Row k c me f (.context q (.forkCopy q))
  | stop : Row k c me f .stop

section Rows

variable (k : Cfg N) (c : C) (me : Option (Fin N)) (p : Fin N)

section

variable (f : Frame N)

theorem scheduler_row : Row k c me f (schedulerInstr c f) := by
  cases f
  case scan ps =>
    cases ps with
    | nil => exact .act fun _ _ => .move .scan
    | cons p ps => exact .acquire (.scan me p ps)
  case pick p ps =>
    refine .act fun _ sh => ?_
    by_cases h : (sh.proc p).state = .runnable
    · simp only [if_pos h]
      exact .write (.pick p ps h)
    · simp only [if_neg h]
      exact .move (.pick p ps h)
  case assign p ps => exact .act fun _ _ => .assign p ps rfl
  case switch p ps => exact .swtchTo p ps rfl
  case back p ps => exact .act fun _ _ => .back p ps rfl
  case drop p ps => exact .release (.drop me p ps)
  all_goals exact .stop

theorem wakeup_row : Row k c me f (wakeupInstr me f) := by
  cases f
  case wakeup ch ps =>
    cases ps with
    | nil => exact .act fun _ _ => .move (.wakeupEnd ch)
    | cons q ps =>
      simp only [wakeupInstr]
      split_ifs with h
      · exact .act fun _ _ => .move (.wakeupSelf ch q ps h)
      · exact .acquire (.wakeup me ch q ps h)
  case wakeup1 ch q ps =>
    refine .act fun _ sh => ?_
    by_cases h : (sh.proc q).state = .sleeping ∧ (sh.proc q).chan = ch
    · simp only [if_pos h]
      exact .write (.wakeup ch q ps h.1 h.2)
    · simp only [if_neg h]
      exact .move (.wakeup ch q ps h)
  case wakeup2 ch q ps => exact .release (.wakeup me ch q ps)
  all_goals exact .stop

theorem sleep_row : Row k c (some p) f (sleepInstr p f) := by
  cases f
  case forkret => exact .release (.forkret p)
  case yield0 => exact .acquire (.yield p)
  case yield1 => exact .act fun _ _ => .write (.yield p rfl)
  case yield2 => exact .swtchBack .yield
  case yield3 => exact .release (.yield p)
  case sleep0 ch lk => exact .acquire (.sleep p ch lk)
  case sleep1 ch lk => exact .release (.sleep p ch lk)
  case sleep2 ch lk => exact .act fun _ _ => .write (.sleepChan p ch lk rfl)
  case sleep3 ch lk => exact .act fun _ _ => .write (.sleep p ch lk rfl)
  case sleep4 ch lk => exact .swtchBack (.sleep ch lk)
  case sleep5 ch lk => exact .act fun _ _ => .write (.sleepEnd p ch lk rfl)
  case sleep6 ch lk => exact .release (.sleepEnd p ch lk)
  case sleep7 ch lk => exact .acquire (.sleepEnd p ch lk)
  all_goals exact .stop

theorem kill_row : Row k c (some p) f (killInstr p f) := by
  cases f
  case kill pid ps =>
    cases ps with
    | nil => exact .act fun _ _ => .move (.killEnd p pid rfl)
    | cons q ps => exact .acquire (.kill p pid q ps)
  case kill1 pid q ps =>
    refine .act fun _ sh => ?_
    by_cases h : (sh.proc q).pid = pid
    · simp only [if_pos h]
      exact .write (.kill p pid q ps rfl h)
    · simp only [if_neg h]
      exact .move (.kill p pid q ps rfl h)
  case kill2 pid q =>
    refine .act fun _ sh => ?_
    by_cases h : (sh.proc q).state = .sleeping
    · simp only [if_pos h]
      exact .write (.killAsleep p pid q rfl h)
    · simp only [if_neg h]
      exact .move (.killAwake p pid q rfl h)
  case kill3 q => exact .release (.killEnd p q)
  case kill4 pid q ps => exact .release (.kill p pid q ps)
  case setkilled0 => exact .acquire (.setkilled p)
  case setkilled1 => exact .act fun _ _ => .write (.setkilled p rfl)
  case setkilled2 => exact .release (.setkilled p)
  case grow sz pagetable => exact .act fun _ _ => .write (.grow p sz pagetable rfl)
  all_goals exact .stop

theorem exit_row : Row k c (some p) f (exitInstr k p f) := by
  cases f
  case exit0 status =>
    simp only [exitInstr]
    split_ifs with h
    · exact .stop
    · exact .acquire (.exit p status h)
  case reparent status ps =>
    cases ps with
    | nil => exact .act fun _ _ => .move (.reparentEnd p status rfl)
    | cons q ps =>
      refine .act fun _ sh => ?_
      by_cases h : (sh.proc q).parent = some p
      · simp only [if_pos h]
        exact .write (.reparent p status q ps rfl h)
      · simp only [if_neg h]
        exact .move (.reparent p status q ps rfl h)
  case exit2 status => exact .acquire (.exitSelf p status)
  case exit3 status => exact .act fun _ _ => .write (.exitStatus p status rfl)
  case exit4 status => exact .act fun _ _ => .write (.exit p status rfl)
  case exit5 => exact .release (.exit p)
  case exit6 => exact .swtchBack .exit
  all_goals exact .stop

theorem wait_row : Row k c (some p) f (waitInstr p f) := by
  cases f
  case wait0 addr => exact .acquire (.wait p addr)
  case waitScan addr kids ps =>
    cases ps with
    | nil =>
      cases kids with
      | true => exact .act fun _ _ => .move (.waitKids p addr rfl)
      | false => exact .act fun _ _ => .move (.waitEnd p addr rfl)
    | cons q ps =>
      refine .act fun _ sh => ?_
      by_cases h : (sh.proc q).parent = some p
      · simp only [if_pos h]
        exact .move (.waitChild p addr kids q ps rfl h)
      · simp only [if_neg h]
        exact .move (.waitOther p addr kids q ps rfl h)
  case waitLock addr q ps => exact .acquire (.waitChild p addr q ps)
  case waitTest addr q ps =>
    refine .act fun inp sh => ?_
    by_cases h : (sh.proc q).state = .zombie
    · simp only [if_pos h]
      by_cases hc : addr ≠ 0 ∧ inp.ok = false
      · simp only [if_pos hc]
        exact .move (.waitErr p addr q ps rfl h)
      · simp only [if_neg hc]
        exact .write (.reap p addr q ps rfl h)
    · simp only [if_neg h]
      exact .move (.waitAlive p addr q ps rfl h)
  case waitDone q pid => exact .release (.waitDone p q pid)
  case waitRet pid => exact .release (.waitRet p pid)
  case waitErr q => exact .release (.waitErr p q)
  case waitFail => exact .release (.waitFail p)
  case waitDrop addr q ps => exact .release (.waitDrop p addr q ps)
  case waitKilled0 addr => exact .acquire (.waitKilled p addr)
  case waitKilled1 addr => exact .act fun _ _ => .move (.waitKilled p addr rfl)
  case waitKilled2 addr killed =>
    cases killed with
    | true => exact .release (.waitKilled p addr)
    | false => exact .release (.waitSleep p addr)
  all_goals exact .stop

theorem fork_row : Row k c (some p) f (forkInstr p f) := by
  cases f
  case fork ps =>
    cases ps with
    | nil => exact .act fun _ _ => .move (.forkEnd p rfl)
    | cons q ps => exact .acquire (.fork p q ps)
  case forkTest q ps =>
    refine .act fun _ sh => ?_
    by_cases h : (sh.proc q).state = .unused
    · simp only [if_pos h]
      exact .move (.forkFound p q ps rfl h)
    · simp only [if_neg h]
      exact .move (.forkTaken p q ps rfl h)
  case forkDrop q ps => exact .release (.forkDrop p q ps)
  case forkPid0 q => exact .acquire (.forkPid p q)
  case forkPid1 q => exact .act fun _ _ => .pid p q rfl rfl
  case forkPid2 q pid => exact .release (.forkPid p q pid)
  case forkUsed q pid => exact .act fun _ _ => .write (.forkUsed p q pid rfl)
  case forkAlloc q =>
    refine .act fun inp sh => ?_
    cases inp with
    | mk ok page table =>
      cases page with
      | none => exact .write (.forkNoMemory p q none rfl)
      | some page =>
        cases table with
        | none => exact .write (.forkNoMemory p q (some page) rfl)
        | some table => exact .write (.forkAlloc p q page table rfl)
  case forkContext q => exact .context p q rfl rfl
  case forkCopy q =>
    refine .act fun inp sh => ?_
    cases hok : inp.ok with
    | true =>
      exact .write (.forkCopy p q rfl)
    | false => exact .move (.forkNoCopy p q rfl)
  case forkFail q => exact .act fun _ _ => .write (.forkFail p q rfl)
  case forkFail1 q => exact .release (.forkFail p q)
  case forkRel q pid => exact .release (.forkRel p q pid)
  case forkParent0 q pid => exact .acquire (.forkParent p q pid)
  case forkParent1 q pid => exact .act fun _ _ => .write (.forkParent p q pid rfl)
  case forkParent2 q pid => exact .release (.forkParent p q pid)
  case forkRun0 q pid => exact .acquire (.forkRun p q pid)
  case forkRun1 q pid => exact .act fun _ _ => .write (.forkRun p q pid rfl)
  case forkRun2 q pid => exact .release (.forkRun p q pid)
  all_goals exact .stop

end

end Rows

/-- Every instruction is a row of the table. -/
theorem instr_row (k : Cfg N) (c : C) (me : Option (Fin N)) (f : Frame N) : Row k c me f (instr k c me f) := by
  cases f
  case client0 l => exact .acquire (.client me l)
  all_goals first
    | exact scheduler_row k c me _
    | exact wakeup_row k c me _
    | exact .stop
    | skip
  all_goals cases me with
    | none => exact .stop
    | some p => first
      | exact sleep_row k c p _
      | exact kill_row k c p _
      | exact exit_row k c p _
      | exact wait_row k c p _
      | exact fork_row k c p _

variable {c : C} {k : Cfg N} {f : Frame N} {me : Option (Fin N)}

theorem acquires_of_instr {lk : Lock N}
    {next : List (Frame N)} (h : instr k c me f = .acquire lk next) : Acquires k me f lk next := by
  have hrow := h ▸ instr_row k c me f
  cases hrow with
  | acquire ha => exact ha

theorem releases_of_instr {lk : Lock N}
    {next : List (Frame N)} {ev : Event N} (h : instr k c me f = .release lk next ev) : Releases me f lk next ev := by
  have hrow := h ▸ instr_row k c me f
  cases hrow with
  | release hr => exact hr

theorem acts_of_instr {g : Input → Shared N C → Result N C} (h : instr k c me f = .act g) (inp : Input)
    (sh : Shared N C) : Acts k c me sh f (g inp sh).1 (g inp sh).2.1 (g inp sh).2.2 := by
  have hrow := h ▸ instr_row k c me f
  cases hrow with
  | act ha => exact ha inp sh

/-- Only the scheduler switches to a process. -/
theorem switch_of_instr {k : Cfg N} {c : C} {me : Option (Fin N)} {f next : Frame N} {p : Fin N}
    (h : instr k c me f = .swtchTo p next) : ∃ ps, f = .switch p ps ∧ next = .back p ps := by
  have hrow := h ▸ instr_row k c me f
  cases hrow with
  | swtchTo _ ps hf => exact ⟨ps, hf, rfl⟩

theorem leaves_of_instr {k : Cfg N} {c : C} {me : Option (Fin N)} {f next : Frame N}
    (h : instr k c me f = .swtchBack next) : Leaves f next := by
  have hrow := h ▸ instr_row k c me f
  cases hrow with
  | swtchBack hl => exact hl

/-- Only `allocproc` sets up a context. -/
theorem context_of_instr {k : Cfg N} {c : C} {me : Option (Fin N)} {f next : Frame N} {q : Fin N}
    (h : instr k c me f = .context q next) : (∃ p, me = some p) ∧ f = .forkContext q ∧ next = .forkCopy q := by
  have hrow := h ▸ instr_row k c me f
  cases hrow with
  | context p _ hme hf => exact ⟨⟨p, hme⟩, hf, rfl⟩

end Xv6.Sched

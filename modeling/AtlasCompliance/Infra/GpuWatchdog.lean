import AtlasCompliance.Lib.Transition

/-! The second net of the GPU: commands that start and stop instances, the detached watchdogs they
spawn, and the lock file between them, in every interleaving and with every step able to fail. -/
namespace AtlasCompliance.Infra

/-- What a command does between the start of the instance and the arming of its watchdog. -/
inductive Check
  | endpoint
  | health
  | roles
  | writeEnv
  deriving DecidableEq

/-- Where a watchdog is: before its look at the lock, before reading it, before the two questions of
its loop, and before removing the lock. -/
inductive Wait
  | boot
  | read
  | cancelled (deadline : ℚ)
  | expired (deadline : ℚ)
  | clear
  deriving DecidableEq

/-- A process with the `GPU_INSTANCE_ID` of its environment: `up` before its first and its second call
of the cloud, `provision`, either of them once the instance `id` runs, with the checks left before the
lock is written, and before its watchdog is spawned; `down` or `teardown` before removing the lock, and
before the pause or the destruction; a watchdog. -/
inductive Proc
  | finding (envId : String) (checks : List Check)
  | resuming (envId : String) (checks : List Check)
  | creating (envId : String) (checks : List Check)
  | checking (envId id : String) (checks : List Check)
  | spawning (envId id : String)
  | stopping (envId : String) (destroy : Bool)
  | pausing (envId : String) (destroy : Bool)
  | watchdog (envId : String) (wait : Wait)
  deriving DecidableEq

/-- The instances with whether they run, the deadline in the lock file, the processes, the time since
the epoch, and the deadline of the latest session of each instance. -/
structure Host (π : Type) where
  machines : String → Option Bool
  lock : Option ℚ
  procs : π → Option Proc
  time : ℚ
  session : String → Option ℚ

/-- How a step ends that is not up to the process alone: it returns, it raises before it has an effect,
the instance runs under an id (and the call returns or raises), the idle timeout of the environment, or
the spawned process. -/
inductive Reply (π : Type)
  | done
  | raised
  | machine (id : String) (raised : Bool)
  | timeout (seconds : ℚ)
  | child (q : π)

inductive Action (π : Type)
  | up (p : π) (envId : String) (skipHealth writeEnv : Bool)
  | provision (p : π) (envId : String) (writeEnv : Bool)
  | down (p : π) (envId : String)
  | teardown (p : π) (envId : String) (destroy : Bool)
  | advance (p : π) (reply : Reply π)
  | tick (seconds : ℚ)

/-- The machine: its monotonic clock counts from `bootTime` on. -/
structure Clock where
  bootTime : ℚ

namespace Host
variable {π : Type} [DecidableEq π]

def setProc (s : Host π) (p : π) (c : Option Proc) : Host π :=
  { s with procs := Function.update s.procs p c }

def setMachine (s : Host π) (id : String) (running : Option Bool) : Host π :=
  { s with machines := Function.update s.machines id running }

def setLock (s : Host π) (deadline : Option ℚ) : Host π := { s with lock := deadline }

/-- An instance begins to run; no session of it has armed a watchdog yet. -/
def startMachine (s : Host π) (id : String) : Host π :=
  { s with
    machines := Function.update s.machines id (some true)
    session := Function.update s.session id none }

/-- The time on the monotonic clock. -/
def monotonic (clock : Clock) (s : Host π) : ℚ := s.time - clock.bootTime

/-- A new process. -/
def begin (s : Host π) (p : π) (c : Proc) : Option (Host π) :=
  if (s.procs p).isNone then some (s.setProc p (some c)) else none

/-- `provider.resume()` up to the answer of `get_instance`. -/
def find (s : Host π) (p : π) (envId : String) (checks : List Check) : Host π :=
  match s.machines envId with
  | none => s.setProc p none
  | some true => s.setProc p (some (.checking envId envId checks))
  | some false => s.setProc p (some (.resuming envId checks))

/-- The rest of `provider.resume()`: the instance may come back under another id. -/
def resume (s : Host π) (p : π) (envId : String) (checks : List Check) (id : String)
    (raised : Bool) : Option (Host π) :=
  if (s.machines envId).isSome ∧ id ≠ "" ∧ (id = envId ∨ s.machines id = none) then
    some (((s.setMachine envId none).startMachine id).setProc p
      (if raised then none else some (.checking envId id checks)))
  else none

/-- `provider.create()`. -/
def create (s : Host π) (p : π) (envId : String) (checks : List Check) (id : String)
    (raised : Bool) : Option (Host π) :=
  if id ≠ "" ∧ s.machines id = none then
    some ((s.startMachine id).setProc p (if raised then none else some (.checking envId id checks)))
  else none

/-- The lock of `_arm_watchdog`. -/
def writeLock (s : Host π) (p : π) (envId id : String) (seconds : ℚ) : Host π :=
  ({ s with session := Function.update s.session id (some (s.time + seconds)) }.setLock
    (some (s.time + seconds))).setProc p (some (.spawning envId id))

/-- The process of `_arm_watchdog`, with the environment of its parent. -/
def spawn (s : Host π) (p q : π) (envId : String) : Option (Host π) :=
  if (s.procs q).isNone then
    some ((s.setProc p none).setProc q (some (.watchdog envId .boot)))
  else none

/-- `provider.pause()` or `provider.destroy()` of a known instance; the process goes on as `c`. -/
def halt (s : Host π) (p : π) (id : String) (destroy : Bool) (c : Option Proc) : Host π :=
  match s.machines id with
  | none => s.setProc p none
  | some _ => (s.setMachine id (if destroy then none else some false)).setProc p c

/-- One step of a watchdog. -/
def watch (clock : Clock) (s : Host π) (p : π) (envId : String) : Wait → Host π
  | .boot => s.setProc p (if s.lock.isSome then some (.watchdog envId .read) else none)
  | .read => s.setProc p (s.lock.map fun d => .watchdog envId (.cancelled d))
  | .cancelled d =>
    s.setProc p (some (.watchdog envId (if s.lock.isSome then .expired d else .clear)))
  | .expired d =>
    if d ≤ s.monotonic clock then s.halt p envId false (some (.watchdog envId .clear))
    else s.setProc p (some (.watchdog envId (.cancelled d)))
  | .clear => (s.setLock none).setProc p none

/-- The next step of a process. -/
def next (clock : Clock) (s : Host π) (p : π) : Proc → Reply π → Option (Host π)
  | _,.raised => some (s.setProc p none)
  | .finding envId checks,.done => some (s.find p envId checks)
  | .resuming envId checks,.machine id raised => s.resume p envId checks id raised
  | .creating envId checks,.machine id raised => s.create p envId checks id raised
  | .checking envId id (_::checks),.done => some (s.setProc p (some (.checking envId id checks)))
  | .checking envId id [],.timeout seconds => some (s.writeLock p envId id seconds)
  | .spawning envId _,.child q => s.spawn p q envId
  | .stopping envId destroy,.done =>
    some ((s.setLock none).setProc p (some (.pausing envId destroy)))
  | .pausing envId destroy,.done => some (s.halt p envId destroy none)
  | .watchdog envId wait,.done => some (s.watch clock p envId wait)
  | _,_ => none

def step (clock : Clock) (s : Host π) : Action π → Option (Host π)
  | .up p envId skipHealth writeEnv => s.begin p (.finding envId
    (.endpoint::(if skipHealth then [] else [.health]) ++ if writeEnv then [.writeEnv] else []))
  | .provision p envId writeEnv =>
    s.begin p (.creating envId (.roles::if writeEnv then [.writeEnv] else []))
  | .down p envId => s.begin p (.stopping envId false)
  | .teardown p envId destroy => s.begin p (.stopping envId destroy)
  | .advance p reply => (s.procs p).bind fun c => s.next clock p c reply
  | .tick seconds => if 0 ≤ seconds then some { s with time := s.time + seconds } else none

/-- No process and no running instance; a lock may have been left behind. The empty id names none. -/
def init (known : String → Bool) (lock : Option ℚ) (time : ℚ) : Host π :=
  ⟨fun id => if known id && id != "" then some false else none,lock,fun _ => none,time,fun _ => none⟩

end Host

/-- The deadline a watchdog has read or is about to read. -/
def Wait.deadline (lock : Option ℚ) : Wait → Option ℚ
  | .boot | .read => lock
  | .cancelled d | .expired d => some d
  | .clear => none

def Proc.isWatchdog : Proc → Bool
  | .watchdog _ _ => true
  | .finding _ _ | .resuming _ _ | .creating _ _ | .checking _ _ _ | .spawning _ _ | .stopping _ _
  | .pausing _ _ => false

/-- The process is a watchdog that pauses the instance when its latest session's deadline is over: it
targets the id, the lock is there, and its monotonic clock shows its own deadline at that time. -/
def Host.Watches {π : Type} (clock : Clock) (s : Host π) (p : π) (id : String) : Prop :=
  ∃ wait d, s.procs p = some (.watchdog id wait) ∧ s.lock.isSome = true ∧
    wait.deadline s.lock = some d ∧ s.session id = some (d + clock.bootTime)

/-! ### Who looks after a running instance -/

/-- A command that has still to write the lock for the instance, or to pause it. -/
def Proc.Attends (id : String) : Proc → Prop
  | .checking _ j _ => j = id
  | .pausing envId _ => envId = id
  | .finding _ _ | .resuming _ _ | .creating _ _ | .spawning _ _ | .stopping _ _ | .watchdog _ _ => False

/-- The process attends to the instance, or is about to spawn a watchdog of the lock's session, or is
a watchdog of its latest session. -/
def Proc.Covers (clock : Clock) (lock session : Option ℚ) (id : String) : Proc → Prop
  | .spawning _ j => j = id ∧ lock.isSome = true ∧ session = lock
  | .watchdog envId wait => envId = id ∧ lock.isSome = true ∧
      ∃ d, wait.deadline lock = some d ∧ session = some (d + clock.bootTime)
  | c => c.Attends id

/-- The process needs nothing of the lock but that it is there. -/
def Proc.Settled (clock : Clock) (session : Option ℚ) (id : String) : Proc → Prop
  | .watchdog envId wait => envId = id ∧
      ∃ d, (∀ lock, wait.deadline lock = some d) ∧ session = some (d + clock.bootTime)
  | c => c.Attends id

namespace Host
variable {π : Type} (clock : Clock) (s : Host π)

def Attends (p : π) (id : String) : Prop := ∃ c, s.procs p = some c ∧ c.Attends id

def Covers (p : π) (id : String) : Prop :=
  ∃ c, s.procs p = some c ∧ c.Covers clock s.lock (s.session id) id

def Settled (p : π) (id : String) : Prop :=
  ∃ c, s.procs p = some c ∧ c.Settled clock (s.session id) id

/-- Another process than `p` covers the instance. -/
def CoveredBeside (p : π) (id : String) : Prop := ∃ q, q ≠ p ∧ s.Covers clock q id

/-- A step that takes no net away: what raises is not alone in covering a running instance and has not
just started one; a watchdog is spawned with the id of its instance, on a clock that counts from the
epoch; the lock is written over when no other running instance's watchdog has still to read it; and it
is removed when no running instance but the one to be stopped is left to a watchdog. -/
def Careful : Action π → Prop
  | .advance p reply => ∀ c, s.procs p = some c → match c,reply with
    | _,.raised => ∀ id, s.machines id = some true → s.Covers clock p id → s.CoveredBeside clock p id
    | _,.machine _ raised => raised = false
    | .checking _ id [],.timeout _ =>
      ∀ j, j ≠ id → s.machines j = some true → ∃ q, s.Settled clock q j
    | .spawning envId id,.child _ => s.machines id = some true →
      (envId = id ∧ clock.bootTime = 0) ∨ s.CoveredBeside clock p id
    | .stopping envId _,.done => ∀ j, j ≠ envId → s.machines j = some true → ∃ q, s.Attends q j
    | .watchdog _ .clear,.done => s.lock.isSome = true →
      ∀ j, s.machines j = some true → ∃ q, s.Attends q j
    | _,_ => True
  | .up _ _ _ _ | .provision _ _ _ | .down _ _ | .teardown _ _ _ | .tick _ => True

/-- Every running instance is covered. -/
def Safe : Prop := ∀ id, s.machines id = some true → ∃ p, s.Covers clock p id

end Host

namespace Proc
variable {clock : Clock} {lock lock' session : Option ℚ} {id : String} {c : Proc}

theorem Attends.covers (h : c.Attends id) : c.Covers clock lock session id := by
  cases c with
  | checking | pausing => exact h
  | finding | resuming | creating | spawning | stopping | watchdog => cases h

theorem Settled.covers (h : c.Settled clock session id) (hlock : lock.isSome = true) :
    c.Covers clock lock session id := by
  cases c with
  | watchdog envId wait =>
    obtain ⟨henv,d,hd,hsession⟩ := h
    exact ⟨henv,hlock,d,hd lock,hsession⟩
  | checking | pausing => exact h
  | finding | resuming | creating | spawning | stopping => cases h

end Proc

namespace Host
variable {π : Type} {clock : Clock} {s t : Host π} {p q : π} {id : String}

theorem Attends.covers (h : s.Attends p id) : s.Covers clock p id := by
  obtain ⟨c,hc,hattends⟩ := h
  exact ⟨c,hc,hattends.covers⟩

/-- A process goes on covering an instance while nothing it depends on changes. -/
theorem Covers.congr (h : s.Covers clock p id) (hproc : t.procs p = s.procs p)
    (hlock : t.lock = s.lock) (hsession : t.session id = s.session id) : t.Covers clock p id := by
  obtain ⟨c,hc,hcovers⟩ := h
  exact ⟨c,hproc.trans hc,by rwa [hlock,hsession]⟩

theorem covers_iff {c : Proc} (hc : s.procs p = some c) :
    s.Covers clock p id ↔ c.Covers clock s.lock (s.session id) id := by
  simp [Covers,hc]

theorem setMachine_self (id : String) (running : Option Bool) :
    (s.setMachine id running).machines id = running := by simp [setMachine]

theorem setMachine_of_ne {j : String} (hne : j ≠ id) (running : Option Bool) :
    (s.setMachine id running).machines j = s.machines j := by simp [setMachine,hne]

theorem startMachine_of_ne {j : String} (hne : j ≠ id) :
    (s.startMachine id).machines j = s.machines j ∧
      (s.startMachine id).session j = s.session j := by simp [startMachine,hne]

/-- An instance that stops running needs no cover. -/
theorem Safe.stop {running : Option Bool} (h : s.Safe clock) (hstop : running ≠ some true) :
    (s.setMachine id running).Safe clock := by
  intro j hrunning
  by_cases hj : j = id
  · subst hj
    exact absurd ((setMachine_self j running).symm.trans hrunning) hstop
  · obtain ⟨q,hq⟩ := h j ((setMachine_of_ne hj running).symm.trans hrunning)
    exact ⟨q,hq.congr rfl rfl rfl⟩

theorem init_not_running (known : String → Bool) (lock : Option ℚ) (time : ℚ) (j : String) :
    (init known lock time : Host π).machines j ≠ some true := by
  simp only [init]
  split_ifs <;> simp

variable [DecidableEq π]

theorem setProc_self (c : Option Proc) : (s.setProc p c).procs p = c := by simp [setProc]

theorem setProc_of_ne (hne : q ≠ p) (c : Option Proc) : (s.setProc p c).procs q = s.procs q := by
  simp [setProc,hne]

/-- A process moves on and covers what it covered, or others do. -/
theorem Safe.setProc {c : Option Proc} (h : s.Safe clock)
    (hself : ∀ id, s.machines id = some true → s.Covers clock p id →
      (∃ c', c = some c' ∧ c'.Covers clock s.lock (s.session id) id) ∨ s.CoveredBeside clock p id) :
    (s.setProc p c).Safe clock := by
  intro id hrunning
  obtain ⟨q,hq⟩ := h id hrunning
  have hother : ∀ q, q ≠ p → s.Covers clock q id → ∃ q, (s.setProc p c).Covers clock q id :=
    fun q hne hq => ⟨q,hq.congr (setProc_of_ne hne c) rfl rfl⟩
  by_cases hqp : q = p
  · subst hqp
    obtain ⟨c',rfl,hc'⟩ | ⟨r,hne,hr⟩ := hself id hrunning hq
    · exact ⟨q,c',setProc_self _,hc'⟩
    · exact hother r hne hr
  · exact hother q hqp hq

/-- An instance that starts is covered by the command that started it. -/
theorem Safe.start {envId : String} {checks : List Check} (h : s.Safe clock)
    (hp : ∀ id, ¬ s.Covers clock p id) :
    ((s.startMachine id).setProc p (some (.checking envId id checks))).Safe clock := by
  intro j hrunning
  by_cases hj : j = id
  · subst hj
    exact ⟨p,_,setProc_self _,rfl⟩
  · obtain ⟨hmachine,hsession⟩ := @startMachine_of_ne π s id j hj
    obtain ⟨q,hq⟩ := h j (hmachine.symm.trans hrunning)
    have hne : q ≠ p := fun heq => hp j (heq ▸ hq)
    exact ⟨q,hq.congr (setProc_of_ne hne _) rfl hsession⟩

/-! ### What one step does to the covers -/

/-- A process that covers nothing may become anything. -/
theorem Safe.setProc_free {c : Option Proc} (h : s.Safe clock) (hp : ∀ id, ¬ s.Covers clock p id) :
    (s.setProc p c).Safe clock := h.setProc fun id _ hcovers => absurd hcovers (hp id)

theorem Safe.find {envId : String} {checks : List Check} (h : s.Safe clock)
    (hc : s.procs p = some (.finding envId checks)) : (s.find p envId checks).Safe clock := by
  have hp : ∀ id, ¬ s.Covers clock p id := fun _ hcovers => (covers_iff hc).mp hcovers
  unfold Host.find
  split
  · exact h.setProc_free hp
  · exact h.setProc_free hp
  · exact h.setProc_free hp

theorem safe_writeLock {envId : String} {seconds : ℚ}
    (hc : s.procs p = some (.checking envId id []))
    (hsettled : ∀ j, j ≠ id → s.machines j = some true → ∃ q, s.Settled clock q j) :
    (s.writeLock p envId id seconds).Safe clock := by
  intro j hrunning
  by_cases hj : j = id
  · subst hj
    exact ⟨p,_,setProc_self _,rfl,rfl,by simp [Host.writeLock,Host.setProc,setLock]⟩
  · obtain ⟨q,c,hq,hsettles⟩ := hsettled j hj hrunning
    have hne : q ≠ p := by
      rintro rfl
      rw [hc] at hq
      obtain rfl := Option.some.inj hq
      exact hj hsettles.symm
    refine ⟨q,c,(setProc_of_ne hne _).trans hq,Proc.Settled.covers ?_ rfl⟩
    have hsession : (s.writeLock p envId id seconds).session j = s.session j := by
      simp [Host.writeLock,Host.setProc,setLock,hj]
    rwa [hsession]

theorem Safe.spawn {envId : String} (h : s.Safe clock) (hc : s.procs p = some (.spawning envId id))
    (hq : s.procs q = none) (hown : s.machines id = some true →
      (envId = id ∧ clock.bootTime = 0) ∨ s.CoveredBeside clock p id) :
    ((s.setProc p none).setProc q (some (.watchdog envId .boot))).Safe clock := by
  have hother : ∀ r j, r ≠ p → s.Covers clock r j →
      ∃ r, ((s.setProc p none).setProc q (some (.watchdog envId .boot))).Covers clock r j := by
    intro r j hne hr
    have hrq : r ≠ q := by
      rintro rfl
      obtain ⟨c,hr,-⟩ := hr
      cases hq.symm.trans hr
    exact ⟨r,hr.congr ((setProc_of_ne hrq _).trans (setProc_of_ne hne _)) rfl rfl⟩
  intro j hrunning
  obtain ⟨r,hr⟩ := h j hrunning
  by_cases hrp : r = p
  · subst hrp
    obtain ⟨rfl,hlock,hsession⟩ := (covers_iff hc).mp hr
    obtain ⟨rfl,hboot⟩ | ⟨r',hne,hr'⟩ := hown hrunning
    · obtain ⟨d,hd⟩ := Option.isSome_iff_exists.mp hlock
      refine ⟨q,_,setProc_self _,rfl,hlock,d,hd,?_⟩
      rw [hboot,add_zero]
      exact hsession.trans hd
    · exact hother r' _ hne hr'
  · exact hother r j hrp hr

/-- The lock goes, and commands attend to the running instances. -/
theorem Safe.unlock {c : Option Proc} (hp : ∀ id, ¬ s.Attends p id)
    (hattends : ∀ j, s.machines j = some true → (∃ c', c = some c' ∧ c'.Attends j) ∨
      ∃ q, s.Attends q j) : ((s.setLock none).setProc p c).Safe clock := by
  intro j hrunning
  obtain ⟨c',rfl,hc'⟩ | ⟨q,hq⟩ := hattends j hrunning
  · exact ⟨p,c',setProc_self _,hc'.covers⟩
  · have hne : q ≠ p := fun heq => hp j (heq ▸ hq)
    obtain ⟨c'',hc'',hcovers⟩ := hq
    exact ⟨q,c'',(setProc_of_ne hne _).trans hc'',hcovers.covers⟩

/-- A pause or a destruction, by a process that covers no other instance. -/
theorem Safe.halt {destroy : Bool} {c : Option Proc} (h : s.Safe clock)
    (honly : ∀ j, s.Covers clock p j → j = id) : (s.halt p id destroy c).Safe clock := by
  unfold Host.halt
  cases hmachine : s.machines id with
  | none =>
    refine h.setProc fun j hrunning hcovers => ?_
    obtain rfl := honly j hcovers
    cases hmachine.symm.trans hrunning
  | some running =>
    have hstop : (if destroy then none else some false : Option Bool) ≠ some true := by
      split_ifs <;> simp
    refine (h.stop hstop).setProc fun j hrunning hcovers => ?_
    obtain rfl := honly j (hcovers.congr rfl rfl rfl)
    exact absurd ((setMachine_self j _).symm.trans hrunning) hstop

theorem Safe.watch {envId : String} {wait : Wait} (h : s.Safe clock)
    (hc : s.procs p = some (.watchdog envId wait)) (hclear : wait = .clear → s.lock.isSome = true →
      ∀ j, s.machines j = some true → ∃ q, s.Attends q j) : (s.watch clock p envId wait).Safe clock := by
  have honly : ∀ j, s.Covers clock p j → j = envId :=
    fun j hcovers => ((covers_iff hc).mp hcovers).1.symm
  -- while the lock is there, the deadline that was read or will be read stays
  have hgoesOn : ∀ {wait' : Wait}, wait'.deadline s.lock = wait.deadline s.lock → ∀ j,
      s.Covers clock p j → (Proc.watchdog envId wait').Covers clock s.lock (s.session j) j := by
    intro wait' hsame j hcovers
    obtain ⟨henv,hlock,d,hd,hsession⟩ := (covers_iff hc).mp hcovers
    exact ⟨henv,hlock,d,hsame.trans hd,hsession⟩
  have hlocked : ∀ j, s.Covers clock p j → s.lock.isSome = true :=
    fun j hcovers => ((covers_iff hc).mp hcovers).2.1
  cases wait with
  | boot =>
    refine h.setProc fun j _ hcovers => Or.inl ?_
    rw [if_pos (hlocked j hcovers)]
    exact ⟨_,rfl,hgoesOn rfl j hcovers⟩
  | read =>
    refine h.setProc fun j _ hcovers => Or.inl ?_
    obtain ⟨d,hd⟩ := Option.isSome_iff_exists.mp (hlocked j hcovers)
    refine ⟨.watchdog envId (.cancelled d),by rw [hd]; rfl,hgoesOn ?_ j hcovers⟩
    exact hd.symm
  | cancelled d =>
    refine h.setProc fun j _ hcovers => Or.inl ?_
    rw [if_pos (hlocked j hcovers)]
    exact ⟨_,rfl,hgoesOn rfl j hcovers⟩
  | expired d =>
    by_cases hdue : d ≤ s.monotonic clock
    · rw [Host.watch,if_pos hdue]
      exact h.halt honly
    · rw [Host.watch,if_neg hdue]
      exact h.setProc fun j _ hcovers => Or.inl ⟨_,rfl,hgoesOn rfl j hcovers⟩
  | clear =>
    have hfree : ∀ j, ¬ s.Covers clock p j := by
      intro j hcovers
      obtain ⟨-,-,d,hd,-⟩ := (covers_iff hc).mp hcovers
      cases hd
    cases hlock : s.lock with
    | none =>
      have hsame : s.setLock none = s := by rw [setLock,← hlock]
      change ((s.setLock none).setProc p none).Safe clock
      rw [hsame]
      exact h.setProc_free hfree
    | some d =>
      refine Safe.unlock (fun j hattends => hfree j hattends.covers) fun j hrunning => Or.inr ?_
      exact hclear rfl (by rw [hlock]; rfl) j hrunning

/-- What is not a step of a running process changes no cover. -/
theorem Safe.begin {c : Proc} (h : s.Safe clock) (hbegin : s.begin p c = some t) : t.Safe clock := by
  unfold Host.begin at hbegin
  split_ifs at hbegin with hfree
  obtain rfl := Option.some.inj hbegin
  refine h.setProc_free fun id hcovers => ?_
  obtain ⟨c',hc',-⟩ := hcovers
  rw [hc'] at hfree
  cases hfree

theorem Safe.next {c : Proc} {reply : Reply π} (h : s.Safe clock) (hc : s.procs p = some c)
    (hcareful : s.Careful clock (.advance p reply)) (hnext : s.next clock p c reply = some t) :
    t.Safe clock := by
  have hguard := hcareful c hc
  have hidle : (∀ id, ¬ c.Covers clock s.lock (s.session id) id) → ∀ id, ¬ s.Covers clock p id :=
    fun hno id hcovers => hno id ((covers_iff hc).mp hcovers)
  cases reply with
  | raised =>
    have hspared : ∀ id, s.machines id = some true → s.Covers clock p id →
        s.CoveredBeside clock p id := by cases c <;> exact hguard
    obtain rfl : s.setProc p none = t := by cases c <;> exact Option.some.inj hnext
    exact h.setProc fun id hrunning hcovers => Or.inr (hspared id hrunning hcovers)
  | done =>
    cases c with
    | finding envId checks =>
      obtain rfl := Option.some.inj hnext
      exact h.find hc
    | checking envId id checks =>
      cases checks with
      | nil => cases hnext
      | cons check checks =>
        obtain rfl := Option.some.inj hnext
        exact h.setProc fun j _ hcovers => Or.inl ⟨_,rfl,(covers_iff hc).mp hcovers⟩
    | stopping envId destroy =>
      obtain rfl := Option.some.inj hnext
      refine Safe.unlock (fun id hattends => hidle (fun _ hno => hno) id hattends.covers) ?_
      intro j hrunning
      by_cases hj : j = envId
      · exact Or.inl ⟨_,rfl,hj.symm⟩
      · exact Or.inr (hguard j hj hrunning)
    | pausing envId destroy =>
      obtain rfl := Option.some.inj hnext
      exact h.halt fun j hcovers => ((covers_iff hc).mp hcovers).symm
    | watchdog envId wait =>
      obtain rfl := Option.some.inj hnext
      refine h.watch hc fun hwait => ?_
      subst hwait
      exact hguard
    | resuming envId checks => cases hnext
    | creating envId checks => cases hnext
    | spawning envId id => cases hnext
  | machine id raised =>
    cases c with
    | resuming envId checks =>
      obtain rfl : raised = false := hguard
      simp only [Host.next,Host.resume,Bool.false_eq_true,if_false] at hnext
      split_ifs at hnext
      obtain rfl := Option.some.inj hnext
      have hstop : (none : Option Bool) ≠ some true := by simp
      refine (h.stop hstop).start fun j hcovers => hidle (fun _ hno => hno) j ?_
      exact hcovers.congr rfl rfl rfl
    | creating envId checks =>
      obtain rfl : raised = false := hguard
      simp only [Host.next,Host.create,Bool.false_eq_true,if_false] at hnext
      split_ifs at hnext
      obtain rfl := Option.some.inj hnext
      exact h.start (hidle fun _ hno => hno)
    | finding | checking | spawning | stopping | pausing | watchdog => cases hnext
  | timeout seconds =>
    cases c with
    | checking envId id checks =>
      cases checks with
      | nil =>
        obtain rfl := Option.some.inj hnext
        exact safe_writeLock hc hguard
      | cons check checks => cases hnext
    | finding | resuming | creating | spawning | stopping | pausing | watchdog => cases hnext
  | child q =>
    cases c with
    | spawning envId id =>
      simp only [Host.next,Host.spawn] at hnext
      split_ifs at hnext with hfree
      obtain rfl := Option.some.inj hnext
      exact h.spawn hc (Option.isNone_iff_eq_none.mp hfree) hguard
    | finding | resuming | creating | checking | stopping | pausing | watchdog => cases hnext

theorem Safe.step {act : Action π} (h : s.Safe clock) (hcareful : s.Careful clock act)
    (hstep : s.step clock act = some t) : t.Safe clock := by
  cases act with
  | up | provision | down | teardown => exact h.begin hstep
  | advance p reply =>
    obtain ⟨c,hc,hnext⟩ := Option.bind_eq_some_iff.mp hstep
    exact h.next hc hcareful hnext
  | tick seconds =>
    simp only [Host.step] at hstep
    split_ifs at hstep
    obtain rfl := Option.some.inj hstep
    intro id hrunning
    obtain ⟨q,hq⟩ := h id hrunning
    exact ⟨q,hq.congr rfl rfl rfl⟩

/-- A watchdog at its deadline pauses its instance, if the call returns. -/
theorem expired_pauses {d : ℚ} (hrunning : s.machines id = some true)
    (hdue : d ≤ s.monotonic clock) :
    (s.watch clock p id (.expired d)).machines id = some false := by
  rw [watch,if_pos hdue,halt,hrunning]
  exact setMachine_self id (some false)

end Host

/-- In every run whose steps are careful, whenever no command is executing, each running instance has
a watchdog that is not cancelled, has the deadline of its latest session and targets its id. -/
theorem watched_when_idle {π : Type} [DecidableEq π] {clock : Clock} {known : String → Bool}
    {lock : Option ℚ} {time : ℚ} {acts : List (Action π)} {s : Host π}
    (hg : Transition.Guarded (Host.step clock) (Host.Careful clock) (Host.init known lock time) acts)
    (h : Transition.run (Host.step clock) (Host.init known lock time) acts = some s)
    (hidle : ∀ p c, s.procs p = some c → c.isWatchdog = true) {id : String}
    (hrunning : s.machines id = some true) : ∃ p, s.Watches clock p id := by
  have hinit : (Host.init known lock time : Host π).Safe clock :=
    fun j hj => absurd hj (Host.init_not_running known lock time j)
  have hsafe : s.Safe clock := Transition.run_guarded_invariant (I := Host.Safe clock)
    (fun s act t hs hcareful hstep => hs.step hcareful hstep) hinit hg h
  obtain ⟨p,c,hc,hcovers⟩ := hsafe id hrunning
  have hwatchdog := hidle p c hc
  cases c with
  | watchdog envId wait =>
    obtain ⟨rfl,hlock,d,hd,hsession⟩ := hcovers
    exact ⟨p,wait,d,hc,hlock,hd,hsession⟩
  | finding | resuming | creating | checking | spawning | stopping | pausing => cases hwatchdog

/-- `up` of a paused instance, up to the start of it. -/
def upSchedule (rest : List (Action ℕ)) : List (Action ℕ) :=
  [.up 1 "4711" true false,.advance 1 .done,.advance 1 (.machine "4711" false)] ++ rest

/-- No step of this `up` fails. -/
theorem upSchedule_careful : Transition.Guarded (Host.step ⟨0⟩) (Host.Careful ⟨0⟩)
    (Host.init (fun _ => true) none 1782036000) (upSchedule
      [.advance 1 .done,.advance 1 (.timeout 1200),.advance 1 (.child 2)]) := by
  refine ⟨trivial,fun t ht => ?_⟩
  obtain rfl := Option.some.inj ht
  refine ⟨fun c hc => Option.some.inj hc ▸ trivial,fun t ht => ?_⟩
  obtain rfl := Option.some.inj ht
  refine ⟨fun c hc => Option.some.inj hc ▸ rfl,fun t ht => ?_⟩
  obtain rfl := Option.some.inj ht
  refine ⟨fun c hc => Option.some.inj hc ▸ trivial,fun t ht => ?_⟩
  obtain rfl := Option.some.inj ht
  refine ⟨fun c hc => Option.some.inj hc ▸ ?_,fun t ht => ?_⟩
  · intro j hj hrunning
    refine absurd ?_ (Host.init_not_running (π := ℕ) (fun _ => true) none 1782036000 j)
    exact ((Function.update_of_ne hj _ _).trans (Function.update_of_ne hj _ _)).symm.trans hrunning
  obtain rfl := Option.some.inj ht
  exact ⟨fun c hc => Option.some.inj hc ▸ fun _ => Or.inl ⟨rfl,rfl⟩,fun t ht => trivial⟩

/-- An `up` under which nothing fails, on a clock that counts from the epoch. -/
theorem watched_when_idle_up : ∃ s : Host ℕ, Transition.run (Host.step ⟨0⟩)
    (Host.init (fun _ => true) none 1782036000) (upSchedule
      [.advance 1 .done,.advance 1 (.timeout 1200),.advance 1 (.child 2)]) = some s ∧
    ∃ p, s.Watches ⟨0⟩ p "4711" := by
  refine ⟨_,rfl,watched_when_idle upSchedule_careful rfl ?_ rfl⟩
  intro p c hc
  by_cases hchild : p = 2
  · subst hchild
    obtain rfl := Option.some.inj hc
    rfl
  · by_cases hcommand : p = 1
    · subst hcommand
      cases hc
    · have hframe : ∀ (t : Host ℕ) (c : Option Proc), (t.setProc 1 c).procs p = t.procs p :=
        fun t c => Host.setProc_of_ne hcommand c
      rw [Host.setProc_of_ne hchild,hframe,Host.writeLock,hframe] at hc
      change (Host.setProc _ _ _).procs p = some c at hc
      rw [hframe] at hc
      change (Host.setProc _ _ _).procs p = some c at hc
      rw [hframe] at hc
      change (Host.setProc (Host.setProc _ _ _) _ _).procs p = some c at hc
      rw [hframe,hframe] at hc
      cases hc

/-- The endpoint of the instance cannot be found, and nothing will ever pause it. -/
theorem endpoint_failure_leaks : ¬ ∀ (clock : Clock) (known : String → Bool) (lock : Option ℚ)
    (time : ℚ) (acts : List (Action ℕ)) (s : Host ℕ),
    Transition.run (Host.step clock) (Host.init known lock time) acts = some s →
    (∀ p c, s.procs p = some c → c.isWatchdog = true) → ∀ id, s.machines id = some true →
      ∃ p, s.Watches clock p id := by
  intro hclaim
  have hrun := hclaim ⟨0⟩ (fun _ => true) none 1782036000 (upSchedule [.advance 1 .raised]) _ rfl
  have hnone : ∀ p, (Function.update (Function.update (Function.update (Function.update
      (fun _ => none) 1 (some (.finding "4711" [.endpoint]))) 1 (some (.resuming "4711" [.endpoint])))
      1 (some (.checking "4711" "4711" [.endpoint]))) 1 none : ℕ → Option Proc) p = none := by
    intro p
    by_cases hp : p = 1 <;> simp [hp]
  obtain ⟨p,wait,d,hp,-⟩ := hrun (fun p c hc => by cases (hnone p).symm.trans hc) "4711" rfl
  cases (hnone p).symm.trans hp

end AtlasCompliance.Infra

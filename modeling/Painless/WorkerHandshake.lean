import Painless.Transitions
import Mathlib.Data.Int.Notation

/-!
The interrupt handshake of SequentialWorker between its thread and one thread
that controls it. Every lock, unlock, wait, signal and access of the atomic flag
is one step. The worker tests the flag under interruptLock, and only then takes
waitInterruptLock for the time of solver->solve; a wait on interruptCond may
also end without a signal. The worker has a solver: mainWorker calls it without
a test for null.
-/
namespace Painless.WorkerHandshake

open Transitions

inductive Thread where
  | worker
  | controller
  deriving DecidableEq

/-- Where mainWorker stands. -/
inductive WorkerPc where
  /-- the test of globalEnding -/
  | loop
  | lockInterrupt
  /-- if (sq->interrupt) -/
  | test
  | wait
  | waiting
  /-- woken, but interruptLock has not been taken again -/
  | woken
  | unlockInterrupt
  | lockWait
  | solving
  | unlockWait
  /-- the report and join -/
  | joining
  | exited
  deriving DecidableEq

/-- What the controlling thread calls. -/
inductive Call where
  | setInterrupt
  | waitInterrupt
  | unsetInterrupt
  | solve (cube : List ℤ)

/-- Where the controlling thread stands inside a call. -/
inductive ControllerPc where
  | idle
  | setFlag
  | setSolver
  | waitLock
  | waitUnlock
  | setCube (cube : List ℤ)
  | unsetSolver
  | unsetFlag
  | signalLock
  | signal
  | signalUnlock
  deriving DecidableEq

structure State where
  interrupt : Bool
  stopSolver : Bool
  actualCube : List ℤ
  interruptLock : Option Thread
  waitInterruptLock : Option Thread
  globalEnding : Bool
  worker : WorkerPc
  controller : ControllerPc
  /-- History: setInterrupt has returned and nothing has revoked it since. -/
  asked : Bool
  /-- History: waitInterrupt has returned since then. -/
  exclusive : Bool
  deriving DecidableEq

inductive Action where
  | work
  | wakeSpuriously
  | call (c : Call)
  | control
  | endRun

/-- The next step of mainWorker. -/
def work (s : State) : Option State :=
  match s.worker with
  | .loop => some { s with worker := if s.globalEnding then .exited else .lockInterrupt }
  | .lockInterrupt =>
    if s.interruptLock = none then
      some { s with interruptLock := some .worker, worker := .test }
    else none
  | .test => some { s with worker := if s.interrupt then .wait else .unlockInterrupt }
  | .wait => some { s with interruptLock := none, worker := .waiting }
  | .woken =>
    if s.interruptLock = none then
      some { s with interruptLock := some .worker, worker := .unlockInterrupt }
    else none
  | .unlockInterrupt => some { s with interruptLock := none, worker := .lockWait }
  | .lockWait =>
    if s.waitInterruptLock = none then
      some { s with waitInterruptLock := some .worker, worker := .solving }
    else none
  | .solving => some { s with worker := .unlockWait }
  | .unlockWait => some { s with waitInterruptLock := none, worker := .joining }
  | .joining => some { s with worker := .loop }
  | .waiting => none
  | .exited => none

/-- The first step inside a call. Both calls that let the worker go on revoke
an earlier setInterrupt. -/
def call (s : State) : Call → State
  | .setInterrupt => { s with controller := .setFlag }
  | .waitInterrupt => { s with controller := .waitLock }
  | .unsetInterrupt =>
    { s with controller := .unsetSolver, asked := false, exclusive := false }
  | .solve cube =>
    { s with controller := .setCube cube, asked := false, exclusive := false }

/-- The next step of the controlling thread inside its call. -/
def control (s : State) : Option State :=
  match s.controller with
  | .setFlag => some { s with interrupt := true, controller := .setSolver }
  | .setSolver => some { s with stopSolver := true, controller := .idle, asked := true }
  | .waitLock =>
    if s.waitInterruptLock = none then
      some { s with waitInterruptLock := some .controller, controller := .waitUnlock }
    else none
  | .waitUnlock =>
    some { s with waitInterruptLock := none, controller := .idle, exclusive := s.asked }
  | .setCube cube => some { s with actualCube := cube, controller := .unsetSolver }
  | .unsetSolver => some { s with stopSolver := false, controller := .unsetFlag }
  | .unsetFlag => some { s with interrupt := false, controller := .signalLock }
  | .signalLock =>
    if s.interruptLock = none then
      some { s with interruptLock := some .controller, controller := .signal }
    else none
  | .signal =>
    some { s with
      worker := if s.worker = .waiting then .woken else s.worker
      controller := .signalUnlock }
  | .signalUnlock => some { s with interruptLock := none, controller := .idle }
  | .idle => none

def step (s : State) : Action → Option State
  | .work => work s
  | .wakeSpuriously => if s.worker = .waiting then some { s with worker := .woken } else none
  | .call c => if s.controller = .idle then some (call s c) else none
  | .control => control s
  | .endRun => some { s with globalEnding := true }

/-- After the constructor: the flag is set and the thread starts. -/
def start : State where
  interrupt := true
  stopSolver := false
  actualCube := []
  interruptLock := none
  waitInterruptLock := none
  globalEnding := false
  worker := .loop
  controller := .idle
  asked := false
  exclusive := false

def machine : Machine State Action where
  Init s := s = start
  step := step

end Painless.WorkerHandshake
